import Wasmsh.NetworkRules

/-!
# When the two network policies agree

What each side reads of a rule and of a URL, and when the two policies are the same.
-/

namespace Wasmsh.Network

open IpText

variable {t raw : List Char} {n : Option Nat} {h : UrlHost} {signed : Bool}
variable {f : HostFeatures}

/-! ## 1. Names -/

variable {u : UrlCrate} {ipv6Text : Ipv6Addr → List Char}

theorem Resolves.unique {h h' : UrlHost} (hr : Resolves u t h)
    (hr' : Resolves u t h') : h = h' := by
  obtain ⟨p, hp, hh⟩ := hr.parsed
  obtain ⟨p', hp', hh'⟩ := hr'.parsed
  rw [hp] at hp'
  cases hp'
  exact Option.some.inj (hh.symm.trans hh')

theorem parseIpv4_none (h : ':' ∈ t) : parseIpv4 t = none := by
  cases hparse : parseIpv4 t with
  | none => rfl
  | some a =>
    rcases parseIpv4_chars hparse ':' h with hdigit | hdot
    · exact absurd hdigit (by decide)
    · cases hdot

theorem parseIpv6_none (h : ':' ∉ t) : parseIpv6 t = none := by
  cases hparse : parseIpv6 t with
  | none => rfl
  | some a => exact absurd (parseIpv6_took hparse).2 h

/-- The checks on the syntax of a host, as both sides make them. -/
theorem syntax_checks (hcontrols : ∀ c ∈ t, isC0 c = false) :
    (t.isEmpty || decide (t.getLast? = some '.') || t.any (fun c => "/@?#%\\".toList.contains c)) = false ↔
      t ≠ [] ∧ t.getLast? ≠ some '.' ∧ HostText t := by
  simp only [Bool.or_eq_false_iff, List.isEmpty_eq_false_iff, decide_eq_false_iff_not,
    List.any_eq_false, and_assoc]
  constructor
  · rintro ⟨hne, hdot, hseps⟩
    exact ⟨hne, hdot, fun c hc => Bool.eq_false_iff.mpr (hseps c hc), hcontrols⟩
  · rintro ⟨hne, hdot, hhost⟩
    exact ⟨hne, hdot, fun c hc => Bool.eq_false_iff.mp (hhost.separators c hc)⟩

variable (W : Whatwg u ipv6Text)
include W

/-- The characters of a name that is parsed. -/
theorem Resolves.plain (hr : Resolves u t h) (hname : NameText t) :
    (∀ a, h ≠ .ipv6 a) ∧ (∀ c ∈ t, isWhitespace c = false ∧ isControl c = false) ∧
      ∀ d, h = .domain d → DomainText d := by
  obtain ⟨p, hp, hh⟩ := hr.parsed
  obtain ⟨hscheme, ⟨h', hh', hipv6⟩, hchars⟩ := W.plain hr.host hname.dropDot hp
  have heq : h' = h := Option.some.inj (hh'.symm.trans hh)
  subst heq
  refine ⟨hipv6, ?_, ?_⟩
  · intro c hc
    by_cases hdot : c = '.'
    · rw [hdot]
      decide
    · exact hchars c (mem_dropDot_of_mem hc hdot)
  · rintro d rfl
    exact W.domain hp (.inl hscheme) hh

/-- The names that Rust reads. -/
theorem normalizeRuleHost_iff (hname : NameText t)
    (hcontrols : ∀ c ∈ t, isC0 c = false) (r : List Char) :
    normalizeRuleHost u t = .ok r ↔ ∃ h, Resolves u t h ∧ HostName h r := by
  have hcontrols' : ∀ c ∈ dropDot t, isC0 c = false :=
    fun c hc => hcontrols c (mem_of_mem_dropDot hc)
  have hbrackets : stripBrackets (dropDot t) = dropDot t := by
    unfold stripBrackets
    split
    next rest heq =>
      exact absurd (mem_of_mem_dropDot (heq ▸ List.mem_cons_self)) hname.opening
    next => rfl
  unfold normalizeRuleHost
  rw [dropDot_eq, hbrackets]
  dsimp only
  split
  next hbad =>
    refine ⟨fun hok => (by cases hok), ?_⟩
    rintro ⟨h, hr, -⟩
    rw [(syntax_checks hcontrols').mpr ⟨hr.nonempty, hr.dots, hr.host⟩] at hbad
    cases hbad
  next hok =>
    obtain ⟨hne, hdots, hhost⟩ := (syntax_checks hcontrols').mp (Bool.not_eq_true _ ▸ hok)
    have hresolves : ∀ {p h}, u.parse (hostUrl (dropDot t)) = .ok p → p.host = some h →
        Resolves u t h := fun hp hh => ⟨hne, hdots, hhost, _, hp, hh⟩
    cases hip : parseIpv4 (dropDot t) with
    | some a =>
      obtain ⟨p, hp, hh⟩ := W.ipv4 hip
      have hr := hresolves hp hh
      simp only [parseIp, hip, IpAddr.text, Except.ok.injEq]
      constructor
      · rintro rfl
        exact ⟨_, hr, .ipv4 a⟩
      · rintro ⟨h, hr', hn⟩
        cases hr.unique hr'
        cases hn
        rfl
    | none =>
      simp only [parseIp, hip, parseIpv6_none hname.dropDot.colon, Option.map_none]
      have hurl : "http://".toList ++ dropDot t ++ "/".toList = hostUrl (dropDot t) := by
        unfold hostUrl
        rfl
      rw [hurl]
      cases hp : u.parse (hostUrl (dropDot t)) with
      | error e =>
        refine ⟨fun hok => (by cases hok), ?_⟩
        rintro ⟨h, hr, -⟩
        obtain ⟨p, hp', -⟩ := hr.parsed
        rw [hp] at hp'
        cases hp'
      | ok p =>
        obtain ⟨hscheme, ⟨h, hh, hipv6⟩, -⟩ := W.plain hhost hname.dropDot hp
        have hr := hresolves hp hh
        have hone : ∀ r, (∃ h, Resolves u t h ∧ HostName h r) ↔ HostName h r := by
          intro r
          refine ⟨?_, fun hn => ⟨h, hr, hn⟩⟩
          rintro ⟨h', hr', hn⟩
          rwa [hr.unique hr']
        rw [hone]
        dsimp only
        rw [hh]
        cases h with
        | domain d =>
          have hlower := ((hr.plain W hname).2.2 d rfl).lower
          dsimp only
          rw [hlower]
          constructor
          · intro h
            cases hvalid : validateDomain d with
            | error e => simp [hvalid, Except.map] at h
            | ok checked =>
              simp only [hvalid, Except.map, Except.ok.injEq] at h
              subst h
              exact .domain hvalid
          · rintro ⟨hvalid⟩
            rw [show validateDomain r = .ok () from hvalid]
            rfl
        | ipv4 a =>
          dsimp only
          rw [show validateDomain a.text = .ok () from validDomain_ipv4 a]
          simp only [Except.map, Except.ok.injEq]
          constructor
          · rintro rfl
            exact .ipv4 a
          · rintro ⟨⟩
            rfl
        | ipv6 a => exact absurd rfl (hipv6 a)

omit W in
/-- The checks of the script on a text before it is parsed. -/
theorem mirror_checks (t : List Char) :
    ((t.isEmpty || decide (Mirror.trim t ≠ t)) = false ∧
      (t.any fun c => decide (c.toNat < 0x20) || c.toNat == 0x7f) = false) ↔
    t ≠ [] ∧ Mirror.trim t = t ∧ ∀ c ∈ t, isC0 c = false := by
  simp only [Bool.or_eq_false_iff, List.isEmpty_eq_false_iff, decide_eq_false_iff_not, ne_eq,
    not_not, List.any_eq_false, and_assoc]
  constructor
  · rintro ⟨hne, htrim, hcontrols⟩
    exact ⟨hne, htrim, fun c hc => Bool.eq_false_iff.mpr (hcontrols c hc)⟩
  · rintro ⟨hne, htrim, hcontrols⟩
    exact ⟨hne, htrim, fun c hc => Bool.eq_false_iff.mp (hcontrols c hc)⟩

omit W in
/-- The last checks of the script on a domain or an IPv4 address. -/
theorem mirror_labels_iff (s j : List Char) :
    (if s.isEmpty || s.contains ':' then Mirror.policyError "invalid host".toList
      else if 253 < (Utf8.encode s).length then
        Mirror.policyError "domain exceeds 253 bytes".toList
      else if (s.splitOn '.').all Mirror.validLabel then Except.ok s
      else Mirror.policyError "domain contains an invalid label".toList) = .ok j ↔
    j = s ∧ ValidDomain s := by
  split
  next hbad =>
    refine ⟨nofun, ?_⟩
    rintro ⟨-, hvalid⟩
    have hgood : (s.isEmpty || s.contains ':') = false := by
      rw [List.isEmpty_eq_false_iff.mpr hvalid.ne_nil, Bool.false_or]
      simpa using hvalid.colon
    rw [hgood] at hbad
    cases hbad
  next =>
    rw [validDomain_iff]
    split
    next hlong =>
      refine ⟨nofun, ?_⟩
      rintro ⟨-, hshort, -⟩
      omega
    next hshort =>
      split
      next hlabels =>
        simp only [Except.ok.injEq]
        exact ⟨fun h => ⟨h.symm, by omega, hlabels⟩, fun h => h.1.symm⟩
      next hlabels =>
        refine ⟨nofun, ?_⟩
        rintro ⟨-, -, hall⟩
        exact absurd hall hlabels

omit W in
theorem toLower_of_digit {c : Char} (h : c.isDigit = true ∨ c = '.') : c.toLower = c := by
  have hlow : ¬ ('A' ≤ c ∧ c ≤ 'Z') := by
    rintro ⟨hlow, -⟩
    have hlow : 'A'.toNat ≤ c.toNat := hlow
    rcases h with hdigit | rfl
    · have := (Char.isDigit_iff_toNat.mp hdigit).2
      exact absurd (Nat.le_trans hlow this) (by decide)
    · exact absurd hlow (by decide)
  unfold Char.toLower
  rw [dif_neg]
  exact fun hupper => hlow hupper

omit W in
theorem ipv4_lower (a : Ipv4Addr) : a.text.map Char.toLower = a.text := by
  have hchars : ∀ c ∈ a.text, c.toLower = c := by
    intro c hc
    rcases mem_intercalate hc with hdot | ⟨l, hl, hmem⟩
    · exact toLower_of_digit (.inr hdot)
    · refine toLower_of_digit (.inl ?_)
      simp only [List.mem_cons, List.not_mem_nil, or_false] at hl
      rcases hl with rfl | rfl | rfl | rfl <;> exact octetText_chars _ c hmem
  rw [List.map_congr_left hchars, List.map_id']

omit W in
/-- Without brackets and colons the script has one way to go. -/
theorem mirror_normalizeHost_name (hname : NameText t) :
    Mirror.normalizeHost u t =
      if t.isEmpty || decide (Mirror.trim t ≠ t) then
        Mirror.policyError "host must be a non-empty, unpadded string".toList
      else if t.any (fun c => decide (c.toNat < 0x20) || c.toNat == 0x7f) then
        Mirror.policyError "host must not contain control characters".toList
      else if (dropDot t).isEmpty || decide ((dropDot t).getLast? = some '.') ||
          (dropDot t).any (fun c => "/@?#%\\".toList.contains c) then
        Mirror.policyError "invalid host syntax".toList
      else match u.parse (hostUrl (dropDot t)) with
        | .error _ => Mirror.policyError "invalid host".toList
        | .ok p =>
          let s := dropDot ((p.hostStr.getD []).map Char.toLower)
          if s.isEmpty || s.contains ':' then Mirror.policyError "invalid host".toList
          else if 253 < (Utf8.encode s).length then
            Mirror.policyError "domain exceeds 253 bytes".toList
          else if (s.splitOn '.').all Mirror.validLabel then Except.ok s
          else Mirror.policyError "domain contains an invalid label".toList := by
  have hopen : (dropDot t).head? ≠ some '[' :=
    fun h => hname.opening (mem_of_mem_dropDot (List.mem_of_head? h))
  have hcolon : ¬ (dropDot t).contains ':' = true := by simpa using hname.dropDot.colon
  unfold Mirror.normalizeHost Mirror.newUrl
  unfold dropDot at hopen hcolon ⊢
  dsimp only
  generalize (if t.getLast? = some '.' then t.dropLast else t) = d at hopen hcolon ⊢
  have hbracketed : ¬ (d.head? = some '[' ∧ d.getLast? ≠ some ']') := fun h => hopen h.1
  split
  · rfl
  · split
    · rfl
    · split
      · rfl
      · unfold hostUrl
        cases u.parse ("http://".toList ++ d ++ "/".toList) with
        | error e => dsimp only
        | ok p => dsimp only [Mirror.JsUrl.ofUrl]

/-- The names that the script reads. -/
theorem mirror_normalizeHost_iff (hname : NameText t) (j : List Char) :
    Mirror.normalizeHost u t = .ok j ↔ Mirror.trim t = t ∧ (∀ c ∈ t, isC0 c = false) ∧
      ∃ h, Resolves u t h ∧ HostName h.dropDot j := by
  rw [mirror_normalizeHost_name hname]
  by_cases hchecks : t ≠ [] ∧ Mirror.trim t = t ∧ ∀ c ∈ t, isC0 c = false
  · obtain ⟨hpadded, hcontrol⟩ := (mirror_checks t).mpr hchecks
    obtain ⟨-, htrim, hcontrols⟩ := hchecks
    have hcontrols' : ∀ c ∈ dropDot t, isC0 c = false :=
      fun c hc => hcontrols c (mem_of_mem_dropDot hc)
    rw [if_neg (by rw [hpadded]; simp), if_neg (by rw [hcontrol]; simp)]
    simp only [htrim, true_and]
    rw [and_iff_right hcontrols]
    split
    next hbad =>
      refine ⟨nofun, ?_⟩
      rintro ⟨h, hr, -⟩
      rw [(syntax_checks hcontrols').mpr ⟨hr.nonempty, hr.dots, hr.host⟩] at hbad
      cases hbad
    next hok =>
      obtain ⟨hne, hdots, hhost⟩ := (syntax_checks hcontrols').mp (Bool.eq_false_iff.mpr hok)
      cases hp : u.parse (hostUrl (dropDot t)) with
      | error e =>
        refine ⟨nofun, ?_⟩
        rintro ⟨h, hr, -⟩
        obtain ⟨p, hp', -⟩ := hr.parsed
        rw [hp] at hp'
        cases hp'
      | ok p =>
        obtain ⟨hscheme, ⟨h, hh, hipv6⟩, -⟩ := W.plain hhost hname.dropDot hp
        have hr : Resolves u t h := ⟨hne, hdots, hhost, p, hp, hh⟩
        have hone : (∃ h, Resolves u t h ∧ HostName h.dropDot j) ↔ HostName h.dropDot j := by
          refine ⟨?_, fun hn => ⟨h, hr, hn⟩⟩
          rintro ⟨h', hr', hn⟩
          rwa [hr.unique hr']
        have hstr := W.hostStr hp
        rw [hh] at hstr
        rw [hone]
        dsimp only
        rw [hstr]
        dsimp only [Option.map_some, Option.getD_some]
        rw [mirror_labels_iff]
        cases h with
        | domain d =>
          have hlower := ((hr.plain W hname).2.2 d rfl).lower
          dsimp only [UrlHost.text, UrlHost.dropDot]
          rw [hlower]
          constructor
          · rintro ⟨rfl, hvalid⟩
            exact .domain hvalid
          · rintro ⟨hvalid⟩
            exact ⟨rfl, hvalid⟩
        | ipv4 a =>
          have hvalid := validDomain_ipv4 a
          dsimp only [UrlHost.text, UrlHost.dropDot]
          rw [ipv4_lower, dropDot_of_ne hvalid.getLast?_ne]
          constructor
          · rintro ⟨rfl, -⟩
            exact .ipv4 a
          · rintro ⟨⟩
            exact ⟨rfl, hvalid⟩
        | ipv6 a => exact absurd rfl (hipv6 a)
  · have hreject : ¬ (Mirror.trim t = t ∧ (∀ c ∈ t, isC0 c = false) ∧
        ∃ h, Resolves u t h ∧ HostName h.dropDot j) := by
      rintro ⟨htrim, hcontrols, h, hr, -⟩
      refine hchecks ⟨?_, htrim, hcontrols⟩
      rintro rfl
      exact hr.nonempty rfl
    refine ⟨fun h => ?_, fun h => absurd h hreject⟩
    split at h
    · cases h
    next hpadded =>
      split at h
      · cases h
      next hcontrol =>
        exact absurd ((mirror_checks t).mp
          ⟨Bool.eq_false_iff.mpr hpadded, Bool.eq_false_iff.mpr hcontrol⟩) hchecks

/-! ## 2. Addresses -/

omit W in
/-- The characters that addresses are written with. -/
theorem address_range {c : Char} (h : isDigitOf 16 c = true ∨ c = ':' ∨ c = '.') :
    c.toNat = 0x2e ∨ (0x30 ≤ c.toNat ∧ c.toNat ≤ 0x3a) ∨ (0x41 ≤ c.toNat ∧ c.toNat ≤ 0x46) ∨
      (0x61 ≤ c.toNat ∧ c.toNat ≤ 0x66) := by
  rcases h with h | rfl | rfl
  · unfold isDigitOf digitValue at h
    split at h
    next hdigit =>
      have hrange := Char.isDigit_iff_toNat.mp hdigit
      have hlow : 0x30 ≤ c.toNat := hrange.1
      have hhigh : c.toNat ≤ 0x39 := hrange.2
      omega
    next =>
      split at h
      next hlower =>
        have hlow : 0x61 ≤ c.toNat := hlower.1
        have hhigh : c.toNat ≤ 0x66 := hlower.2
        omega
      next =>
        split at h
        next hupper =>
          have hlow : 0x41 ≤ c.toNat := hupper.1
          have hhigh : c.toNat ≤ 0x46 := hupper.2
          omega
        next => cases h
  · decide
  · decide

omit W in
omit W in
/-- An address is a text in the place of a host, and has no brackets or wildcards. -/
theorem address_text (h : Took t) :
    HostText t ∧ '[' ∉ t ∧ ']' ∉ t ∧ '*' ∉ t ∧ '?' ∉ t := by
  have hrange := fun c hc => address_range (h.chars c hc)
  refine ⟨⟨?_, ?_⟩, ?_, ?_, ?_, ?_⟩
  · intro c hc
    have := hrange c hc
    unfold isSeparator
    rw [Bool.eq_false_iff]
    intro hsep
    have hmem : c ∈ "/@?#%\\".toList := List.contains_iff_mem.mp hsep
    rw [show "/@?#%\\".toList = ['/', '@', '?', '#', '%', '\\'] from rfl] at hmem
    simp only [List.mem_cons, List.not_mem_nil, or_false] at hmem
    rcases hmem with rfl | rfl | rfl | rfl | rfl | rfl <;> exact absurd this (by decide)
  · intro c hc
    have := hrange c hc
    unfold isC0
    simp only [Bool.or_eq_false_iff, decide_eq_false_iff_not, beq_eq_false_iff_ne]
    omega
  all_goals
    intro hmem
    exact absurd (hrange _ hmem) (by decide)

omit W in
/-- Rust reads an address with and without brackets. -/
theorem normalizeRuleHost_address {a : Ipv6Addr} (h : parseIpv6 t = some a) :
    normalizeRuleHost u t = .ok a.text ∧ normalizeRuleHost u ('[' :: t ++ [']']) = .ok a.text := by
  obtain ⟨htook, hcolon⟩ := parseIpv6_took h
  obtain ⟨hhost, hopen, hclose, -, -⟩ := address_text htook
  have hne : t ≠ [] := by
    rintro rfl
    cases hcolon
  have hipv4 := parseIpv4_none hcolon
  have hchecks := (syntax_checks hhost.controls).mpr ⟨hne, htook.last, hhost⟩
  have hread : ∀ raw, stripBrackets (dropDot raw) = t → normalizeRuleHost u raw = .ok a.text := by
    intro raw hraw
    unfold normalizeRuleHost
    rw [dropDot_eq, hraw]
    dsimp only
    rw [hchecks, if_neg Bool.false_ne_true]
    simp only [parseIp, hipv4, h, Option.map_some, IpAddr.text]
  constructor
  · apply hread
    rw [dropDot_of_ne htook.last]
    unfold stripBrackets
    split
    · exact absurd List.mem_cons_self hopen
    · rfl
  · apply hread
    have hlast : ('[' :: t ++ [']']).getLast? = some ']' := List.getLast?_concat
    rw [dropDot_of_ne (by rw [hlast]; decide), List.cons_append, stripBrackets, stripSuffix,
      List.getLast?_concat, if_pos rfl, List.dropLast_concat]
    rfl

/-- The script reads the address that the parser finds between brackets. -/
theorem bracketed_hostname {p : Url} (ht : HostText t) (hclose : ']' ∉ t)
    (hp : u.parse (bracketUrl t) = .ok p) :
    ∃ a, parseIpv6 t = some a ∧
      ((((Mirror.JsUrl.ofUrl p).hostname.drop 1).dropLast).map Char.toLower) = ipv6Text a := by
  obtain ⟨a, ha⟩ := Option.isSome_iff_exists.mp (W.bracket ht hclose hp)
  obtain ⟨p', hp', hhost⟩ := W.ipv6 ha
  rw [hp] at hp'
  cases hp'
  have hstr := W.hostStr hp
  rw [hhost] at hstr
  refine ⟨a, ha, ?_⟩
  rw [Mirror.JsUrl.ofUrl, hstr]
  dsimp only [Option.map_some, Option.getD_some, UrlHost.text]
  rw [List.cons_append, List.drop_succ_cons, List.drop_zero, List.dropLast_concat]
  exact (W.text a).2.2

theorem colon_mem_ipv6Text (a : Ipv6Addr) : ':' ∈ ipv6Text a := (parseIpv6_took (W.text a).1).2

omit W in
/-- No side has anything against the visible characters of ASCII. -/
theorem graphic_char {c : Char} (h : 0x20 < c.toNat ∧ c.toNat < 0x7f) :
    isWhitespace c = false ∧ isControl c = false ∧ Mirror.isTrimmed c = false ∧
      isC0 c = false := by
  refine ⟨?_, ?_, ?_, ?_⟩
  · unfold isWhitespace
    simp only [Bool.or_eq_false_iff, Bool.and_eq_false_iff, decide_eq_false_iff_not,
      beq_eq_false_iff_ne]
    omega
  · unfold isControl
    simp only [Bool.or_eq_false_iff, Bool.and_eq_false_iff, decide_eq_false_iff_not]
    omega
  · unfold Mirror.isTrimmed
    simp only [Bool.or_eq_false_iff, Bool.and_eq_false_iff, decide_eq_false_iff_not,
      beq_eq_false_iff_ne]
    omega
  · unfold isC0
    simp only [Bool.or_eq_false_iff, decide_eq_false_iff_not, beq_eq_false_iff_ne]
    omega

/-- Where the script looks for an address, it finds what Rust's own parser reads. -/
theorem mirror_normalizeHost_address {t d : List Char}
    (hends : ¬ ((dropDot t).head? = some '[' ∧ (dropDot t).getLast? ≠ some ']'))
    (hinner : (if (dropDot t).head? = some '[' then ((dropDot t).drop 1).dropLast
      else dropDot t) = d)
    (hcolon : ':' ∈ d) (hclose : ']' ∉ d) (hsub : ∀ c ∈ d, c ∈ t) (j : List Char) :
    Mirror.normalizeHost u t = .ok j ↔ Mirror.trim t = t ∧ (∀ c ∈ t, isC0 c = false) ∧
      ∃ a, parseIpv6 d = some a ∧ j = ipv6Text a := by
  have hne : t ≠ [] := by
    rintro rfl
    cases hsub _ hcolon
  unfold Mirror.normalizeHost Mirror.newUrl
  unfold dropDot at hends hinner
  dsimp only
  generalize (if t.getLast? = some '.' then t.dropLast else t) = host at hends hinner ⊢
  rw [if_neg hends]
  generalize (if host.head? = some '[' then (host.drop 1).dropLast else host) = inner at hinner ⊢
  subst hinner
  by_cases hchecks : Mirror.trim t = t ∧ ∀ c ∈ t, isC0 c = false
  · obtain ⟨hpadded, hcontrol⟩ := (mirror_checks t).mpr ⟨hne, hchecks⟩
    have hcontrols : ∀ c ∈ inner, isC0 c = false := fun c hc => hchecks.2 c (hsub c hc)
    rw [if_neg (Bool.eq_false_iff.mp hpadded), if_neg (Bool.eq_false_iff.mp hcontrol)]
    rw [← and_assoc, and_iff_right hchecks]
    have hcontains : inner.contains ':' = true := List.contains_iff_mem.mpr hcolon
    split
    next hbad =>
      refine ⟨nofun, ?_⟩
      rintro ⟨a, ha, -⟩
      have htook := (parseIpv6_took ha).1
      rw [(syntax_checks hcontrols).mpr
        ⟨List.ne_nil_of_mem hcolon, htook.last, (address_text htook).1⟩] at hbad
      cases hbad
    next hok =>
      obtain ⟨-, -, hhost⟩ := (syntax_checks hcontrols).mp (Bool.eq_false_iff.mpr hok)
      cases hp : u.parse (bracketUrl inner) with
      | error e =>
        unfold bracketUrl at hp
        rw [hp]
        refine ⟨nofun, ?_⟩
        rintro ⟨a, ha, -⟩
        obtain ⟨p, hp', -⟩ := W.ipv6 ha
        unfold bracketUrl at hp'
        rw [hp] at hp'
        cases hp'
      | ok p =>
        obtain ⟨a, ha, hname⟩ := bracketed_hostname W hhost hclose hp
        unfold bracketUrl at hp
        rw [hp]
        dsimp only
        rw [hname, if_pos (List.contains_iff_mem.mpr (colon_mem_ipv6Text W a)), ha]
        constructor
        · rintro ⟨⟩
          exact ⟨a, rfl, rfl⟩
        · rintro ⟨b, hb, rfl⟩
          cases hb
          rfl
  · have hreject : ¬ (Mirror.trim t = t ∧ (∀ c ∈ t, isC0 c = false) ∧
        ∃ a, parseIpv6 inner = some a ∧ j = ipv6Text a) := fun h => hchecks ⟨h.1, h.2.1⟩
    refine ⟨fun h => ?_, fun h => absurd h hreject⟩
    split at h
    · cases h
    next hpadded =>
      split at h
      · cases h
      next hcontrol =>
        exact absurd ((mirror_checks t).mp
          ⟨Bool.eq_false_iff.mpr hpadded, Bool.eq_false_iff.mpr hcontrol⟩).2 hchecks

/-- The addresses in brackets that the script reads in rules. -/
theorem mirror_normalizeHost_bracketed (hcolon : ':' ∈ t) (hclose : ']' ∉ t)
    (j : List Char) : Mirror.normalizeHost u t = .ok j ↔
      ∃ a, parseIpv6 (dropDot t) = some a ∧ j = ipv6Text a := by
  have hcolon' : ':' ∈ dropDot t := mem_dropDot_of_mem hcolon (by decide)
  have hclose' : ']' ∉ dropDot t := fun h => hclose (mem_of_mem_dropDot h)
  by_cases hopen : (dropDot t).head? = some '['
  · have hnone : ∀ a, parseIpv6 (dropDot t) ≠ some a := fun a ha =>
      (address_text (parseIpv6_took ha).1).2.1 (List.mem_of_head? hopen)
    have hends : (dropDot t).head? = some '[' ∧ (dropDot t).getLast? ≠ some ']' :=
      ⟨hopen, fun h => hclose' (List.mem_of_getLast? h)⟩
    refine ⟨fun h => ?_, fun ⟨a, ha, _⟩ => absurd ha (hnone a)⟩
    unfold Mirror.normalizeHost at h
    unfold dropDot at hends
    dsimp only at h
    rw [if_pos hends] at h
    split at h
    · cases h
    · split at h
      · cases h
      · cases h
  · rw [mirror_normalizeHost_address W (fun h => hopen h.1) (if_neg hopen) hcolon' hclose'
      (fun c hc => mem_of_mem_dropDot hc)]
    constructor
    · rintro ⟨-, -, h⟩
      exact h
    · rintro ⟨a, ha, hj⟩
      have hgraphic : ∀ c ∈ t, 0x20 < c.toNat ∧ c.toNat < 0x7f := by
        intro c hc
        by_cases hdot : c = '.'
        · rw [hdot]
          decide
        · have := address_range ((parseIpv6_took ha).1.chars c (mem_dropDot_of_mem hc hdot))
          omega
      have hchars := fun c hc => graphic_char (hgraphic c hc)
      refine ⟨(mirror_trim_iff t).mpr ⟨?_, ?_⟩, ?_, a, ha, hj⟩
      · exact fun c hc => (hchars c (List.mem_of_head? hc)).2.2.1
      · exact fun c hc => (hchars c (List.mem_of_getLast? hc)).2.2.1
      · exact fun c hc => (hchars c hc).2.2.2

/-! ## 3. Rules -/

/-- The name of a host as Rust compares it. -/
def UrlHost.rustName : UrlHost → List Char
  | .domain d => d
  | .ipv4 a => a.text
  | .ipv6 a => a.text

/-- The name of a host as the script compares it. -/
def UrlHost.scriptName (ipv6Text : Ipv6Addr → List Char) : UrlHost → List Char
  | .domain d => d
  | .ipv4 a => a.text
  | .ipv6 a => ipv6Text a

/-- The rule with the names of one side. -/
def RuleHost.rule (name : UrlHost → List Char) (n : Option Nat) : RuleHost → NetworkRule
  | .any => .any n
  | .named h wildcard => .host (name h) wildcard n

omit W in
theorem HostName.names {r : List Char} (hn : HostName h r) (ipv6Text : Ipv6Addr → List Char) :
    r = h.rustName ∧ r = h.scriptName ipv6Text := by
  cases hn <;> exact ⟨rfl, rfl⟩

omit W in
/-- A domain that is valid has no dot at its end. -/
theorem HostName.dropDot_eq {r : List Char} (hn : HostName h r) :
    h.dropDot = h := by
  cases hn with
  | domain hvalid => rw [UrlHost.dropDot, dropDot_of_ne hvalid.getLast?_ne]
  | ipv4 a => rfl

omit W in
theorem wildcardText_ne {wildcard : Bool} (h : '*' ∉ t) :
    wildcardText wildcard ++ t ≠ ['*'] := by
  cases wildcard with
  | false =>
    intro heq
    have ht : t = ['*'] := heq
    exact h (ht ▸ List.mem_cons_self)
  | true =>
    intro heq
    cases heq

omit W in
theorem wildcardText_unique {w w' : Bool} {t t' : List Char} (h : '*' ∉ t) (h' : '*' ∉ t')
    (heq : wildcardText w ++ t = wildcardText w' ++ t') : w = w' ∧ t = t' := by
  have hstar : ∀ {s : List Char}, wildcardText false ++ s = s := fun {s} => rfl
  have hmem : ∀ s : List Char, '*' ∈ wildcardText true ++ s := fun s => List.mem_cons_self
  cases w with
  | false =>
    cases w' with
    | false => exact ⟨rfl, heq⟩
    | true =>
      rw [hstar] at heq
      exact absurd (heq ▸ hmem t') h
  | true =>
    cases w' with
    | false =>
      rw [hstar] at heq
      exact absurd (heq ▸ hmem t) h'
    | true => exact ⟨rfl, List.append_cancel_left heq⟩

omit W in
theorem PortText.unique {signed signed' : Bool} {port : List Char} {n n' : Option Nat}
    (h : PortText signed port n) (h' : PortText signed' port n') : signed = signed' ∧ n = n' := by
  have hplus : ∀ {digits : List Char}, ('+' :: digits).all Char.isDigit = true → False := by
    intro digits hdigits
    rw [List.all_cons, isDigit_plus] at hdigits
    cases hdigits
  cases h with
  | absent =>
    cases h'
    exact ⟨rfl, rfl⟩
  | plain hne hdigits hvalue hn =>
    cases h' with
    | plain hne' hdigits' hvalue' hn' => exact ⟨rfl, by rw [← hvalue, hvalue']⟩
    | signed => exact (hplus hdigits).elim
  | signed hne hdigits hvalue hn =>
    cases h' with
    | plain hne' hdigits' => exact (hplus hdigits').elim
    | signed hne' hdigits' hvalue' hn' => exact ⟨rfl, by rw [← hvalue, hvalue']⟩

omit W in
theorem HostSpelled.unique {b : Bool} {f f' : HostFeatures} {h h' : RuleHost}
    (hs : HostSpelled u b t f h) (hs' : HostSpelled u b t f' h') : f = f' ∧ h = h' := by
  cases hs with
  | any =>
    generalize ht : ['*'] = t at hs'
    cases hs' with
    | any => exact ⟨rfl, rfl⟩
    | name w hstar => exact absurd ht.symm (wildcardText_ne hstar)
  | name w hstar hcontrols hr hn =>
    generalize ht : wildcardText w ++ _ = t at hs'
    cases hs' with
    | any => exact absurd ht (wildcardText_ne hstar)
    | name w' hstar' hcontrols' hr' hn' =>
      obtain ⟨rfl, rfl⟩ := wildcardText_unique hstar hstar' ht
      obtain rfl := hr.unique hr'
      exact ⟨rfl, rfl⟩
  | ipv6 ha =>
    cases hs' with
    | ipv6 ha' =>
      rw [ha] at ha'
      cases ha'
      exact ⟨rfl, rfl⟩

omit W in
/-- A text says one thing at most. -/
theorem Spelled.unique {signed signed' : Bool} {f f' : HostFeatures}
    {h h' : RuleHost} {n n' : Option Nat} (hs : Spelled u raw signed f h n)
    (hs' : Spelled u raw signed' f' h' n') : signed = signed' ∧ f = f' ∧ h = h' ∧ n = n' := by
  obtain ⟨hcut, hport, hhost⟩ := hs
  obtain ⟨hcut', hport', hhost'⟩ := hs'
  obtain ⟨rfl, rfl, rfl⟩ := hcut.unique hport hcut' hport'
  obtain ⟨rfl, rfl⟩ := hport.unique hport'
  obtain ⟨rfl, rfl⟩ := hhost.unique hhost'
  exact ⟨rfl, rfl, rfl, rfl⟩

omit W in
theorem PortText.graphic {port : List Char}
    (h : PortText signed port n) : ∀ c ∈ port, 0x20 < c.toNat ∧ c.toNat < 0x7f := by
  have hdigits : ∀ {digits : List Char}, digits.all Char.isDigit = true →
      ∀ c ∈ digits, 0x20 < c.toNat ∧ c.toNat < 0x7f := by
    intro digits hall c hc
    have hrange := Char.isDigit_iff_toNat.mp (List.all_eq_true.mp hall c hc)
    have hlow : 0x30 ≤ c.toNat := hrange.1
    have hhigh : c.toNat ≤ 0x39 := hrange.2
    omega
  intro c hc
  cases h with
  | absent => cases hc
  | plain hne hall =>
    rcases List.mem_cons.mp hc with rfl | hc
    · decide
    · exact hdigits hall c hc
  | signed hne hall =>
    rcases List.mem_cons.mp hc with rfl | hc
    · decide
    · rcases List.mem_cons.mp hc with rfl | hc
      · decide
      · exact hdigits hall c hc

omit W in
theorem wildcardText_graphic (wildcard : Bool) :
    ∀ c ∈ wildcardText wildcard, 0x20 < c.toNat ∧ c.toNat < 0x7f := by
  cases wildcard with
  | false =>
    intro c hc
    cases hc
  | true =>
    intro c hc
    rw [show wildcardText true = ['*', '.'] from rfl] at hc
    simp only [List.mem_cons, List.not_mem_nil, or_false] at hc
    rcases hc with rfl | rfl <;> decide

/-- What the characters of a rule are, for Rust. -/
theorem Spelled.chars {h : RuleHost} (hs : Spelled u raw signed f h n) :
    raw ≠ [] ∧ ∀ c ∈ raw, isWhitespace c = false ∧ isControl c = false := by
  obtain ⟨hcut, hport, hhost⟩ := hs
  have hgraphic : ∀ {s : List Char}, (∀ c ∈ s, 0x20 < c.toNat ∧ c.toNat < 0x7f) →
      ∀ c ∈ s, isWhitespace c = false ∧ isControl c = false := by
    intro s hs c hc
    have := graphic_char (hs c hc)
    exact ⟨this.1, this.2.1⟩
  have hplain := hgraphic hport.graphic
  cases hcut with
  | bracketed hclose =>
    cases hhost with
    | @ipv6 t a haddress =>
      refine ⟨List.cons_ne_nil _ _, ?_⟩
      intro c hc
      rw [List.cons_append, List.mem_cons, List.mem_append, List.mem_cons] at hc
      rcases hc with rfl | hc | rfl | hc
      · decide
      · by_cases hdot : c = '.'
        · rw [hdot]
          decide
        · have := address_range ((parseIpv6_took haddress).1.chars c (mem_dropDot_of_mem hc hdot))
          have := graphic_char (c := c) (by omega)
          exact ⟨this.1, this.2.1⟩
      · decide
      · exact hplain c hc
  | name hname hne =>
    cases hhost with
    | any =>
      refine ⟨List.cons_ne_nil _ _, ?_⟩
      intro c hc
      rcases List.mem_cons.mp hc with rfl | hc
      · decide
      · exact hplain c hc
    | @name wildcard t j h hstar hcontrols hr hn =>
      have hnameT : NameText t :=
        ⟨fun hm => hname.colon (List.mem_append_right _ hm),
          fun hm => hname.opening (List.mem_append_right _ hm),
          fun hm => hname.closing (List.mem_append_right _ hm)⟩
      have ht : t ≠ [] := by
        rintro rfl
        exact hr.nonempty rfl
      refine ⟨by simp [ht], ?_⟩
      intro c hc
      rcases List.mem_append.mp hc with hc | hc
      · rcases List.mem_append.mp hc with hc | hc
        · exact hgraphic (wildcardText_graphic wildcard) c hc
        · exact (hr.plain W hnameT).2.1 c hc
      · exact hplain c hc

omit W in
/-- No domain is read as an address: its last label is not a number. -/
theorem parseIp_domain {d : List Char} (hd : DomainText d) (hvalid : ValidDomain d) :
    parseIp d = none := by
  have hipv6 : parseIpv6 d = none := parseIpv6_none hd.name.colon
  cases hparse : parseIpv4 d with
  | some a =>
    obtain ⟨-, hdigits⟩ := lastLabel_of_parseIpv4 hparse
    exact absurd hdigits (hd.number hvalid.getLast?_ne)
  | none => rw [parseIp, hparse, hipv6]; rfl

/-- The hosts without brackets that Rust reads. -/
theorem rust_name_iff {w : Bool} (hname : NameText t) (hstar : '*' ∉ t)
    (hcontrols : ∀ c ∈ t, isC0 c = false) (r : List Char) :
    (normalizeRuleHost u t = .ok r ∧ (w = true → parseIp r = none)) ↔
      ∃ f h, HostSpelled u false (wildcardText w ++ t) f (.named h w) ∧ ¬ f.dotted ∧
        ¬ f.wildcardIp ∧ r = h.rustName := by
  rw [normalizeRuleHost_iff W hname hcontrols]
  constructor
  · rintro ⟨⟨h, hr, hn⟩, hip⟩
    have hdot := hn.dropDot_eq
    have hspelled := HostSpelled.name w hstar hcontrols hr (hdot.symm ▸ hn)
    rw [hdot] at hspelled
    refine ⟨_, h, hspelled, not_not.mpr rfl, ?_, (hn.names ipv6Text).1⟩
    rintro ⟨hw, a, rfl⟩
    cases hn
    have hsome := hip hw
    rw [parseIp, parseIpv4_text] at hsome
    cases hsome
  · rintro ⟨f, h, hspelled, hdotted, hip, rfl⟩
    generalize hraw : wildcardText w ++ t = raw at hspelled
    generalize hrule : RuleHost.named h w = rule at hspelled
    cases hspelled with
    | any => cases hrule
    | @name w' t' j h' hstar' hcontrols' hr hn =>
      obtain ⟨rfl, rfl⟩ := wildcardText_unique hstar hstar' hraw
      cases hrule
      have hdot : h'.dropDot = h' := not_not.mp hdotted
      rw [hdot] at hn ⊢
      have hj := (hn.names ipv6Text).1
      refine ⟨⟨h', hr, hj ▸ hn⟩, ?_⟩
      intro hw
      cases hn with
      | domain hvalid => exact parseIp_domain ((hr.plain W hname).2.2 _ rfl) hvalid
      | ipv4 a => exact absurd ⟨hw, a, rfl⟩ hip

omit W in
theorem isC0_of_isControl {c : Char} (h : isControl c = false) : isC0 c = false := by
  unfold isControl at h
  unfold isC0
  simp only [Bool.or_eq_false_iff, Bool.and_eq_false_iff, decide_eq_false_iff_not,
    beq_eq_false_iff_ne] at h ⊢
  omega

omit W in
theorem isV6_iff (t : List Char) : (parseIp t).any IpAddr.isV6 = true ↔
    ∃ a, parseIpv6 t = some a := by
  unfold parseIp
  constructor
  · intro h
    cases hv4 : parseIpv4 t with
    | some a => simp [hv4, IpAddr.isV6] at h
    | none =>
      cases hv6 : parseIpv6 t with
      | none => simp [hv4, hv6] at h
      | some a => exact ⟨a, rfl⟩
  · rintro ⟨a, ha⟩
    rw [parseIpv4_none (parseIpv6_took ha).2, ha]
    rfl

omit W in
/-- Without a star and a question mark a host is no wildcard, for both sides. -/
theorem no_wildcard {host : List Char} (hstar : '*' ∉ host) (hmark : '?' ∉ host) :
    host ≠ ['*'] ∧ ¬ ['*', '.'].isPrefixOf host = true ∧
      ¬ (host.contains '*' || host.contains '?') = true := by
  refine ⟨?_, ?_, ?_⟩
  · rintro rfl
    exact hstar List.mem_cons_self
  · intro hstarDot
    obtain ⟨t, rfl⟩ := List.isPrefixOf_iff_prefix.mp hstarDot
    exact hstar List.mem_cons_self
  · simp [hstar, hmark]

omit W in
/-- A host without brackets is one of three: all hosts, the domains below one, or one host. -/
theorem wildcard_cases (host : List Char) :
    host = ['*'] ∨ (∃ t, host = wildcardText true ++ t) ∨
      (host ≠ ['*'] ∧ ¬ ['*', '.'].isPrefixOf host = true) := by
  by_cases hany : host = ['*']
  · exact .inl hany
  · by_cases hstarDot : ['*', '.'].isPrefixOf host = true
    · obtain ⟨t, ht⟩ := List.isPrefixOf_iff_prefix.mp hstarDot
      exact .inr (.inl ⟨t, ht.symm⟩)
    · exact .inr (.inr ⟨hany, hstarDot⟩)

omit W in
theorem Resolves.no_mark (hr : Resolves u t h) : '?' ∉ t :=
  fun hm => absurd (hr.host.separators '?' (mem_dropDot_of_mem hm (by decide))) (by decide)

omit W in
/-- What follows the star and the dot of a wildcard is no pattern. -/
theorem Resolves.suffix_sound (hr : Resolves u t h)
    (hstar : '*' ∉ t) : ¬ (t.isEmpty || t.contains '*' || t.contains '?') = true := by
  have hne : t ≠ [] := by
    rintro rfl
    exact hr.nonempty rfl
  simp [hne, hstar, hr.no_mark]

omit W in
/-- What follows the star and the dot of a wildcard. -/
theorem wildcard_parts (t : List Char) : ['*', '.'].isPrefixOf (wildcardText true ++ t) = true ∧
    (wildcardText true ++ t).drop 2 = t ∧ wildcardText true ++ t ≠ ['*'] :=
  ⟨rfl, rfl, nofun⟩

omit W in
theorem PortText.start {port : List Char}
    (h : PortText signed port n) : port = [] ∨ ∃ rest, port = ':' :: rest := by
  rcases h.cases_eq with ⟨rfl, -⟩ | ⟨rest, rfl, -⟩
  · exact .inl rfl
  · exact .inr ⟨rest, rfl⟩

omit W in
theorem NameText.of_append {before t : List Char} (h : NameText (before ++ t)) : NameText t :=
  ⟨fun hm => h.colon (List.mem_append_right _ hm),
    fun hm => h.opening (List.mem_append_right _ hm),
    fun hm => h.closing (List.mem_append_right _ hm)⟩

/-- What Rust reads is a rule without the features that it refuses. -/
theorem spelled_of_parse {r : NetworkRule} (h : NetworkRule.parse u raw = .ok r) :
    ∃ signed f h n, Spelled u raw signed f h n ∧ ¬ f.dotted ∧ ¬ f.wildcardIp ∧
      r = h.rule UrlHost.rustName n := by
  unfold NetworkRule.parse at h
  split at h
  · cases h
  next hraw =>
    simp only [Bool.or_eq_true, not_or, List.any_eq_true, not_exists, not_and,
      Bool.not_eq_true] at hraw
    obtain ⟨-, hcontrol⟩ := hraw
    cases hsplit : splitRulePort raw with
    | error e => simp [hsplit] at h
    | ok parts =>
      obtain ⟨host, n⟩ := parts
      obtain ⟨b, signed, port, hcut, hport⟩ := (splitRulePort_iff raw host n).mp hsplit
      rw [hsplit] at h
      dsimp only at h
      have hbracket := hcut.head?_iff hport.start
      split at h
      · cases h
      next hv6 =>
        cases b with
        | true =>
          have hsome : (parseIp host).any IpAddr.isV6 = true := by
            by_contra hnot
            exact hv6 ⟨hbracket.mpr rfl, hnot⟩
          obtain ⟨a, ha⟩ := (isV6_iff host).mp hsome
          have htook := (parseIpv6_took ha).1
          obtain ⟨-, -, -, hstar, hmark⟩ := address_text htook
          obtain ⟨hany, hstarDot, hcontains⟩ := no_wildcard hstar hmark
          rw [if_neg hany, if_neg hstarDot, if_neg hcontains,
            (normalizeRuleHost_address ha).1] at h
          cases h
          have hdrop := dropDot_of_ne htook.last
          exact ⟨signed, _, _, n, ⟨hcut, hport, .ipv6 (hdrop.symm ▸ ha)⟩, htook.last, id, rfl⟩
        | false =>
          have hname : NameText host := by
            cases hcut
            assumption
          have hcontrols : ∀ c ∈ host, isC0 c = false := by
            intro c hc
            refine isC0_of_isControl (hcontrol c ?_)
            cases hcut
            exact List.mem_append_left _ hc
          rcases wildcard_cases host with rfl | ⟨t, rfl⟩ | ⟨hany, hstarDot⟩
          · rw [if_pos rfl] at h
            cases h
            exact ⟨signed, _, _, n, ⟨hcut, hport, .any⟩, id, id, rfl⟩
          · obtain ⟨hstarDot, hdrop, hany⟩ := wildcard_parts t
            rw [if_neg hany, if_pos hstarDot, hdrop] at h
            split at h
            · cases h
            next hsuffix =>
              simp only [Bool.or_eq_true, not_or, List.contains_iff_mem] at hsuffix
              have hnameT : NameText t := hname.of_append
              cases hhost : normalizeRuleHost u t with
              | error e => simp [hhost] at h
              | ok name =>
                rw [hhost] at h
                dsimp only at h
                split at h
                · cases h
                next hip =>
                  cases h
                  obtain ⟨f, h, hspelled, hdotted, hwild, rfl⟩ :=
                    (rust_name_iff W hnameT hsuffix.1.2
                      (fun c hc => hcontrols c (List.mem_append_right _ hc)) name).mp
                      ⟨hhost, fun _ => by simpa using hip⟩
                  exact ⟨signed, f, _, n, ⟨hcut, hport, hspelled⟩, hdotted, hwild, rfl⟩
          · rw [if_neg hany, if_neg hstarDot] at h
            split at h
            · cases h
            next hstar =>
              simp only [Bool.or_eq_true, not_or, List.contains_iff_mem] at hstar
              cases hhost : normalizeRuleHost u host with
              | error e => simp [hhost] at h
              | ok name =>
                rw [hhost] at h
                cases h
                obtain ⟨f, h, hspelled, hdotted, hwild, rfl⟩ :=
                  (rust_name_iff (w := false) W hname hstar.1 hcontrols name).mp
                    ⟨hhost, fun hw => (by cases hw)⟩
                exact ⟨signed, f, _, n, ⟨hcut, hport, hspelled⟩, hdotted, hwild, rfl⟩

/-- Rust reads every rule without the features that it refuses. -/
theorem Spelled.parse {h : RuleHost} (hs : Spelled u raw signed f h n) (hdotted : ¬ f.dotted)
    (hip : ¬ f.wildcardIp) : NetworkRule.parse u raw = .ok (h.rule UrlHost.rustName n) := by
  obtain ⟨hne, hchars⟩ := hs.chars W
  obtain ⟨hcut, hport, hhost⟩ := hs
  have hraw : ¬ (raw.isEmpty || decide (trim raw ≠ raw) || raw.any isControl) = true := by
    rw [trim_eq_self fun c hc => (hchars c hc).1]
    simp only [Bool.or_eq_true, not_or, List.any_eq_true, not_exists, not_and, Bool.not_eq_true,
      List.isEmpty_eq_false_iff, ne_eq, not_true, decide_false]
    exact ⟨⟨hne, trivial⟩, fun c hc => (hchars c hc).2⟩
  have hsplit := (splitRulePort_iff raw _ n).mpr ⟨_, signed, _, hcut, hport⟩
  have hbracket := hcut.head?_iff hport.start
  rw [NetworkRule.parse, if_neg hraw, hsplit]
  dsimp only
  cases hhost with
  | any => rw [if_neg fun h => (by cases hbracket.mp h.1), if_pos rfl, RuleHost.rule]
  | @ipv6 _ a ha =>
    rw [dropDot_of_ne hdotted] at ha
    obtain ⟨-, -, -, hstar, hmark⟩ := address_text (parseIpv6_took ha).1
    obtain ⟨hany, hstarDot, hcontains⟩ := no_wildcard hstar hmark
    rw [if_neg fun h => h.2 ((isV6_iff _).mpr ⟨a, ha⟩), if_neg hany, if_neg hstarDot,
      if_neg hcontains, (normalizeRuleHost_address ha).1]
    rfl
  | @name w t j h hstar hcontrols hr hn =>
    rw [if_neg fun h => (by cases hbracket.mp h.1)]
    have hname : NameText (wildcardText w ++ t) := by
      cases hcut
      assumption
    have hnameT : NameText t := hname.of_append
    obtain ⟨hread, hparse⟩ := (rust_name_iff W hnameT hstar hcontrols _).mpr
      ⟨_, _, .name w hstar hcontrols hr hn, hdotted, hip, rfl⟩
    cases w with
    | true =>
      obtain ⟨hstarDot, hdrop, hany⟩ := wildcard_parts t
      rw [if_neg hany, if_pos hstarDot, hdrop, if_neg (hr.suffix_sound hstar), hread]
      dsimp only
      rw [if_neg (by simp [hparse rfl])]
      rfl
    | false =>
      obtain ⟨hany, hstarDot, hcontains⟩ := @no_wildcard (wildcardText false ++ t) hstar
        hr.no_mark
      have hread' : normalizeRuleHost u (wildcardText false ++ t) = _ := hread
      rw [if_neg hany, if_neg hstarDot, if_neg hcontains, hread']
      rfl

omit W in
/-- Where there is no white space, the script only trims byte order marks. -/
theorem mirror_trim_iff_padded {s : List Char} (h : ∀ c ∈ s, isWhitespace c = false) :
    Mirror.trim s = s ↔ ¬ Padded s := by
  rw [mirror_trim_iff, Padded, not_or]
  have hend : ∀ end? : Option Char, (∀ c ∈ end?, c ∈ s) →
      ((∀ c ∈ end?, Mirror.isTrimmed c = false) ↔ end? ≠ some byteOrderMark) := by
    intro end? hmem
    constructor
    · rintro hall rfl
      have := hall byteOrderMark rfl
      rw [isTrimmed_of_not_whitespace (h _ (hmem _ rfl))] at this
      simp at this
    · intro hne c hc
      rw [isTrimmed_of_not_whitespace (h c (hmem c hc)), decide_eq_false_iff_not]
      rintro rfl
      exact hne hc
  rw [hend s.head? (fun c hc => List.mem_of_head? hc),
    hend s.getLast? (fun c hc => List.mem_of_getLast? hc)]

omit W in
theorem byteOrderMark_not_mem {s : List Char} (h : ∀ c ∈ s, 0x20 < c.toNat ∧ c.toNat < 0x7f) :
    byteOrderMark ∉ s := fun hmem => absurd (h _ hmem) (by decide)

omit W in
/-- Only the name of a rule brings a byte order mark to an end of it. -/
theorem Spelled.padded {h : RuleHost} (hs : Spelled u raw signed f h n)
    (hpadded : Padded raw) : f.padded := by
  obtain @⟨host, port, b, _, _, _, _, hcut, hport, hhost⟩ := hs
  have hmark := byteOrderMark_not_mem hport.graphic
  cases hcut with
  | bracketed hclose =>
    cases hhost with
    | ipv6 ha =>
      have hend : ('[' :: host ++ ']' :: port).getLast? = (']' :: port).getLast? :=
        List.getLast?_append_of_ne_nil _ (List.cons_ne_nil _ _)
      rcases hpadded with hhead | hlast
      · cases hhead
      · rw [hend] at hlast
        rcases List.mem_cons.mp (List.mem_of_getLast? hlast) with heq | hmem
        · exact absurd heq (by decide)
        · exact absurd hmem hmark
  | name hname hne =>
    cases hhost with
    | any =>
      rcases hpadded with hhead | hlast
      · cases hhead
      · rcases List.mem_cons.mp (List.mem_of_getLast? hlast) with heq | hmem
        · exact absurd heq (by decide)
        · exact absurd hmem hmark
    | @name w t j h hstar hcontrols hr hn =>
      have ht : t ≠ [] := by
        rintro rfl
        exact hr.nonempty rfl
      rcases hpadded with hhead | hlast
      · rw [List.append_assoc] at hhead
        cases w with
        | true => cases hhead
        | false =>
          refine .inl ?_
          rw [← hhead, wildcardText, if_neg Bool.false_ne_true, List.nil_append,
            List.head?_append_of_ne_nil _ ht]
      · cases hport' : port with
        | nil =>
          refine .inr ?_
          rw [hport', List.append_nil, List.getLast?_append_of_ne_nil _ ht] at hlast
          exact hlast
        | cons c rest =>
          rw [hport', List.getLast?_append_of_ne_nil _ (List.cons_ne_nil _ _)] at hlast
          exact absurd (hport' ▸ List.mem_of_getLast? hlast) hmark

omit W in
theorem HostName.colon {r : List Char} (hn : HostName h r) : ':' ∉ r := by
  cases hn with
  | domain hvalid => exact hvalid.colon
  | ipv4 a => exact (validDomain_ipv4 a).colon

/-- The hosts without brackets that the script reads. -/
theorem script_name_iff {w : Bool} (hname : NameText t) (hstar : '*' ∉ t)
    (j : List Char) : Mirror.normalizeHost u t = .ok j ↔
      ∃ f h, HostSpelled u false (wildcardText w ++ t) f (.named h w) ∧ ¬ f.padded ∧
        j = h.scriptName ipv6Text ∧ ':' ∉ j := by
  rw [mirror_normalizeHost_iff W hname]
  constructor
  · rintro ⟨htrim, hcontrols, h, hr, hn⟩
    have hchars := (hr.plain W hname).2.1
    have hpadded := (mirror_trim_iff_padded fun c hc => (hchars c hc).1).mp htrim
    exact ⟨_, _, .name w hstar hcontrols hr hn, hpadded, (hn.names ipv6Text).2, hn.colon⟩
  · rintro ⟨f, h, hspelled, hpadded, rfl, -⟩
    generalize hraw : wildcardText w ++ t = raw at hspelled
    generalize hrule : RuleHost.named h w = rule at hspelled
    cases hspelled with
    | any => cases hrule
    | @name w' t' j h' hstar' hcontrols hr hn =>
      obtain ⟨rfl, rfl⟩ := wildcardText_unique hstar hstar' hraw
      cases hrule
      have hchars := (hr.plain W hname).2.1
      have htrim := (mirror_trim_iff_padded fun c hc => (hchars c hc).1).mpr hpadded
      exact ⟨htrim, hcontrols, h', hr, (hn.names ipv6Text).2 ▸ hn⟩

/-- What the script reads is a rule without the features that it refuses. -/
theorem spelled_of_mirror_parse {r : NetworkRule} (h : Mirror.parseRule u raw = .ok r) :
    ∃ f h n, Spelled u raw false f h n ∧ ¬ f.padded ∧ r = h.rule (UrlHost.scriptName ipv6Text) n := by
  unfold Mirror.parseRule at h
  split at h
  · cases h
  next hraw =>
    cases hsplit : Mirror.splitRulePort raw with
    | error e => simp [hsplit] at h
    | ok parts =>
      obtain ⟨host, n, b⟩ := parts
      obtain ⟨port, hcut, hport⟩ := (mirror_splitRulePort_iff raw host n b).mp hsplit
      rw [hsplit] at h
      dsimp only at h
      split at h
      · cases h
      next hbracket =>
        cases b with
        | true =>
          have hcolon : ':' ∈ host := by simpa using hbracket
          have hclose : ']' ∉ host := by
            cases hcut
            assumption
          have hany : host ≠ ['*'] := by
            rintro rfl
            exact absurd hcolon (by decide)
          rw [if_neg hany] at h
          split at h
          next hstarDot =>
            obtain ⟨t, rfl⟩ := List.isPrefixOf_iff_prefix.mp hstarDot
            rw [show (['*', '.'] ++ t).drop 2 = t from rfl] at h
            split at h
            · cases h
            · cases hhost : Mirror.normalizeHost u t with
              | error e =>
                rw [hhost] at h
                cases h
              | ok name =>
                have hcolonT : ':' ∈ t := by simpa using hcolon
                have hcloseT : ']' ∉ t := fun hm => hclose (List.mem_append_right _ hm)
                obtain ⟨a, -, rfl⟩ := (mirror_normalizeHost_bracketed W hcolonT hcloseT name).mp hhost
                have hin : (ipv6Text a).contains ':' = true :=
                  List.contains_iff_mem.mpr (colon_mem_ipv6Text W a)
                rw [hhost] at h
                dsimp only at h
                rw [if_pos hin] at h
                cases h
          next =>
            split at h
            · cases h
            · cases hhost : Mirror.normalizeHost u host with
              | error e =>
                rw [hhost] at h
                cases h
              | ok name =>
                obtain ⟨a, ha, rfl⟩ := (mirror_normalizeHost_bracketed W hcolon hclose name).mp hhost
                rw [hhost] at h
                cases h
                exact ⟨_, _, n, ⟨hcut, hport, .ipv6 ha⟩, id, rfl⟩
        | false =>
          have hname : NameText host := by
            cases hcut
            assumption
          rcases wildcard_cases host with rfl | ⟨t, rfl⟩ | ⟨hany, hstarDot⟩
          · rw [if_pos rfl] at h
            cases h
            exact ⟨_, _, n, ⟨hcut, hport, .any⟩, id, rfl⟩
          · obtain ⟨hstarDot, hdrop, hany⟩ := wildcard_parts t
            rw [if_neg hany, if_pos hstarDot, hdrop] at h
            split at h
            · cases h
            next hsuffix =>
              simp only [Bool.or_eq_true, not_or, List.contains_iff_mem] at hsuffix
              cases hhost : Mirror.normalizeHost u t with
              | error e =>
                rw [hhost] at h
                cases h
              | ok name =>
                rw [hhost] at h
                dsimp only at h
                split at h
                · cases h
                next =>
                  cases h
                  obtain ⟨f, h, hspelled, hpadded, rfl, -⟩ :=
                    (script_name_iff (w := true) W hname.of_append hsuffix.1.2 name).mp hhost
                  exact ⟨f, _, n, ⟨hcut, hport, hspelled⟩, hpadded, rfl⟩
          · rw [if_neg hany, if_neg hstarDot] at h
            split at h
            · cases h
            next hstar =>
              simp only [Bool.or_eq_true, not_or, List.contains_iff_mem] at hstar
              cases hhost : Mirror.normalizeHost u host with
              | error e =>
                rw [hhost] at h
                cases h
              | ok name =>
                rw [hhost] at h
                cases h
                obtain ⟨f, h, hspelled, hpadded, rfl, -⟩ :=
                  (script_name_iff (w := false) W hname hstar.1 name).mp hhost
                exact ⟨f, _, n, ⟨hcut, hport, hspelled⟩, hpadded, rfl⟩

/-- The script reads every rule without the features that it refuses. -/
theorem Spelled.mirror_parse {h : RuleHost} (hs : Spelled u raw false f h n)
    (hpadded : ¬ f.padded) :
    Mirror.parseRule u raw = .ok (h.rule (UrlHost.scriptName ipv6Text) n) := by
  obtain ⟨hne, hchars⟩ := hs.chars W
  have htrim := (mirror_trim_iff_padded fun c hc => (hchars c hc).1).mpr fun hp =>
    hpadded (hs.padded hp)
  have hraw : ¬ (raw.isEmpty || decide (Mirror.trim raw ≠ raw)) = true := by
    simp [hne, htrim]
  obtain @⟨host, port, b, _, _, _, _, hcut, hport, hhost⟩ := hs
  have hsplit := (mirror_splitRulePort_iff raw host n b).mpr ⟨_, hcut, hport⟩
  rw [Mirror.parseRule, if_neg hraw, hsplit]
  dsimp only
  cases hhost with
  | any => rw [if_neg fun h => (by cases h.1), if_pos rfl, RuleHost.rule]
  | @ipv6 _ a ha =>
    obtain ⟨htook, hcolon⟩ := parseIpv6_took ha
    have hcolon' := mem_of_mem_dropDot hcolon
    have hclose : ']' ∉ host := by
      cases hcut
      assumption
    obtain ⟨-, -, -, hstar, hmark⟩ := address_text htook
    obtain ⟨hany, hstarDot, hcontains⟩ := no_wildcard
      (fun hm => hstar (mem_dropDot_of_mem hm (by decide)))
      (fun hm => hmark (mem_dropDot_of_mem hm (by decide)))
    rw [if_neg fun h => h.2 (List.contains_iff_mem.mpr hcolon'), if_neg hany, if_neg hstarDot,
      if_neg hcontains, (mirror_normalizeHost_bracketed W hcolon' hclose _).mpr ⟨a, ha, rfl⟩]
    rfl
  | @name w t j h hstar hcontrols hr hn =>
    rw [if_neg fun h => (by cases h.1)]
    have hname : NameText (wildcardText w ++ t) := by
      cases hcut
      assumption
    have hnot : ':' ∉ h.dropDot.scriptName ipv6Text := (hn.names ipv6Text).2 ▸ hn.colon
    have hread := (script_name_iff W hname.of_append hstar _).mpr
      ⟨_, _, .name w hstar hcontrols hr hn, hpadded, rfl, hnot⟩
    cases w with
    | true =>
      obtain ⟨hstarDot, hdrop, hany⟩ := wildcard_parts t
      rw [if_neg hany, if_pos hstarDot, hdrop, if_neg (hr.suffix_sound hstar), hread]
      dsimp only
      rw [if_neg (by simpa using hnot)]
      rfl
    | false =>
      obtain ⟨hany, hstarDot, hcontains⟩ := @no_wildcard (wildcardText false ++ t) hstar
        hr.no_mark
      have hread' : Mirror.normalizeHost u (wildcardText false ++ t) = _ := hread
      rw [if_neg hany, if_neg hstarDot, if_neg hcontains, hread']
      rfl

/-! ## 4. Targets -/

/-- A host as it is compared: an IPv6 address, or one with a name. -/
def Named (h : UrlHost) : Prop := (∃ r, HostName h r) ∨ ∃ a, h = .ipv6 a

/-- A name in ASCII is mapped to itself or to another one without a dot at its end. -/
theorem Resolves.dropDot_eq (hr : Resolves u t h)
    (hname : NameText t) (hascii : ∀ c ∈ t, c.toNat < 0x80) : h.dropDot = h := by
  obtain ⟨p, hp, hh⟩ := hr.parsed
  cases h with
  | domain d =>
    have hlast := W.dot hr.host hname.dropDot (fun c hc => hascii c (mem_of_mem_dropDot hc))
      hr.dots hp hh
    rw [UrlHost.dropDot, dropDot_of_ne hlast]
  | ipv4 a => rfl
  | ipv6 a => rfl

/-- The host of a URL has one name on each side, or both refuse it. -/
theorem plain_hosts_agree (hname : NameText t)
    (hgraphic : ∀ c ∈ t, 0x20 < c.toNat ∧ c.toNat < 0x7f) :
    (∃ h, Named h ∧ normalizeRuleHost u t = .ok h.rustName ∧
      Mirror.normalizeHost u t = .ok (h.scriptName ipv6Text)) ∨
    ((∃ e, normalizeRuleHost u t = .error e) ∧ ∃ e, Mirror.normalizeHost u t = .error e) := by
  have hchars := fun c hc => graphic_char (hgraphic c hc)
  have hcontrols : ∀ c ∈ t, isC0 c = false := fun c hc => (hchars c hc).2.2.2
  have htrim : Mirror.trim t = t := (mirror_trim_iff t).mpr
    ⟨fun c hc => (hchars c (List.mem_of_head? hc)).2.2.1,
      fun c hc => (hchars c (List.mem_of_getLast? hc)).2.2.1⟩
  have hrust := normalizeRuleHost_iff W hname hcontrols
  have hscript := mirror_normalizeHost_iff W hname
  by_cases hex : ∃ h r, Resolves u t h ∧ HostName h r
  · obtain ⟨h, r, hr, hn⟩ := hex
    have hdot := hr.dropDot_eq W hname fun c hc => by
      have := (hgraphic c hc).2
      omega
    obtain ⟨hrust', hscript'⟩ := hn.names ipv6Text
    refine .inl ⟨h, .inl ⟨r, hn⟩, ?_, ?_⟩
    · exact (hrust _).mpr ⟨h, hr, hrust' ▸ hn⟩
    · exact (hscript _).mpr ⟨htrim, hcontrols, h, hr, hdot.symm ▸ hscript' ▸ hn⟩
  · refine .inr ⟨?_, ?_⟩
    · cases hread : normalizeRuleHost u t with
      | error e => exact ⟨e, rfl⟩
      | ok r =>
        obtain ⟨h, hr, hn⟩ := (hrust r).mp hread
        exact absurd ⟨h, r, hr, hn⟩ hex
    · cases hread : Mirror.normalizeHost u t with
      | error e => exact ⟨e, rfl⟩
      | ok j =>
        obtain ⟨-, -, h, hr, hn⟩ := (hscript j).mp hread
        have hdot := hr.dropDot_eq W hname fun c hc => by
          have := (hgraphic c hc).2
          omega
        exact absurd ⟨h, j, hr, hdot ▸ hn⟩ hex

omit W in
theorem ipv4_chars (a : Ipv4Addr) : NameText a.text ∧ ∀ c ∈ a.text, 0x20 < c.toNat ∧ c.toNat < 0x7f := by
  have hchars : ∀ c ∈ a.text, isDigitOf 10 c = true ∨ c = '.' := parseIpv4_chars (parseIpv4_text a)
  have hrange : ∀ c ∈ a.text, c.toNat = 0x2e ∨ (0x30 ≤ c.toNat ∧ c.toNat ≤ 0x3a) ∨
      (0x41 ≤ c.toNat ∧ c.toNat ≤ 0x46) ∨ (0x61 ≤ c.toNat ∧ c.toNat ≤ 0x66) := by
    intro c hc
    rcases hchars c hc with h | h
    · exact address_range (.inl (isDigitOf_ten h))
    · exact address_range (.inr (.inr h))
  refine ⟨⟨(validDomain_ipv4 a).colon, ?_, ?_⟩, ?_⟩
  · exact fun h => absurd (hrange _ h) (by decide)
  · exact fun h => absurd (hrange _ h) (by decide)
  · intro c hc
    have := hrange c hc
    omega

/-- The same for every host that a URL can have. -/
theorem hosts_agree {h' : UrlHost} (hd : ∀ d, h' = .domain d → DomainText d) :
    (∃ h, Named h ∧ normalizeRuleHost u (h'.text ipv6Text) = .ok h.rustName ∧
      Mirror.normalizeHost u (h'.text ipv6Text) = .ok (h.scriptName ipv6Text)) ∨
    ((∃ e, normalizeRuleHost u (h'.text ipv6Text) = .error e) ∧
      ∃ e, Mirror.normalizeHost u (h'.text ipv6Text) = .error e) := by
  cases h' with
  | domain d =>
    have hdomain := hd d rfl
    exact plain_hosts_agree W hdomain.name hdomain.graphic
  | ipv4 a => exact plain_hosts_agree W (ipv4_chars a).1 (ipv4_chars a).2
  | ipv6 a =>
    rw [UrlHost.text]
    obtain ⟨hparse, -, -⟩ := W.text a
    obtain ⟨htook, hcolon⟩ := parseIpv6_took hparse
    obtain ⟨-, -, hclose, -, -⟩ := address_text htook
    have hlast : ('[' :: ipv6Text a ++ [']']).getLast? = some ']' := List.getLast?_concat
    have hdrop : dropDot ('[' :: ipv6Text a ++ [']']) = '[' :: ipv6Text a ++ [']'] :=
      dropDot_of_ne (by rw [hlast]; decide)
    have hgraphic : ∀ c ∈ '[' :: ipv6Text a ++ [']'], 0x20 < c.toNat ∧ c.toNat < 0x7f := by
      intro c hc
      rw [List.cons_append, List.mem_cons, List.mem_append, List.mem_singleton] at hc
      rcases hc with rfl | hc | rfl
      · decide
      · have := address_range (htook.chars c hc)
        omega
      · decide
    have hchars := fun c hc => graphic_char (hgraphic c hc)
    refine .inl ⟨.ipv6 a, .inr ⟨a, rfl⟩, (normalizeRuleHost_address hparse).2, ?_⟩
    refine (mirror_normalizeHost_address (d := ipv6Text a) W ?_ ?_ hcolon hclose ?_ _).mpr
      ⟨?_, ?_, a, hparse, rfl⟩
    · rw [hdrop, hlast]
      exact fun h => h.2 rfl
    · rw [hdrop, List.cons_append, List.head?_cons, if_pos rfl, List.drop_succ_cons,
        List.drop_zero, List.dropLast_concat]
    · intro c hc
      exact List.mem_cons_of_mem _ (List.mem_append_left _ hc)
    · exact (mirror_trim_iff _).mpr
        ⟨fun c hc => (hchars c (List.mem_of_head? hc)).2.2.1,
          fun c hc => (hchars c (List.mem_of_getLast? hc)).2.2.1⟩
    · exact fun c hc => (hchars c hc).2.2.2

/-- Both sides find the same target in a URL, or none. -/
theorem targets_agree (url : List Char) :
    (∃ h s n, Named h ∧ NormalizedTarget.parse u url = .ok ⟨s, h.rustName, n⟩ ∧
      Mirror.normalizeNetworkTarget u url = .ok ⟨h.scriptName ipv6Text, n⟩) ∨
    ((∃ e, NormalizedTarget.parse u url = .error e) ∧
      ∃ e, Mirror.normalizeNetworkTarget u url = .error e) := by
  unfold NormalizedTarget.parse Mirror.normalizeNetworkTarget Mirror.newUrl
  cases hp : u.parse url with
  | error e => exact .inr ⟨⟨_, rfl⟩, _, rfl⟩
  | ok p =>
    dsimp only [Mirror.JsUrl.ofUrl]
    have hprotocol : ∀ s : List Char, p.scheme ++ ":".toList = s ++ ":".toList ↔ p.scheme = s :=
      fun s => ⟨List.append_cancel_right, fun h => h ▸ rfl⟩
    rw [show "http:".toList = "http".toList ++ ":".toList from rfl,
      show "https:".toList = "https".toList ++ ":".toList from rfl]
    simp only [ne_eq, hprotocol]
    by_cases hscheme : ¬ p.scheme = "http".toList ∧ ¬ p.scheme = "https".toList
    · rw [if_pos hscheme, if_pos hscheme]
      exact .inr ⟨⟨_, rfl⟩, _, rfl⟩
    · rw [if_neg hscheme, if_neg hscheme]
      have hhttp : p.scheme = "http".toList ∨ p.scheme = "https".toList := by
        by_contra hnot
        exact hscheme (not_or.mp hnot)
      have hpassword : (p.password.getD []).isEmpty = !p.password.isSome := by
        have hne := W.password hp
        cases hpw : p.password with
        | none => rfl
        | some pw =>
          cases pw with
          | nil => exact absurd hpw hne
          | cons c pw => rfl
      rw [hpassword, Bool.not_not]
      split
      · exact .inr ⟨⟨_, rfl⟩, _, rfl⟩
      · have hstr := W.hostStr hp
        cases hhost : p.host with
        | none =>
          rw [hhost] at hstr
          rw [hstr]
          exact .inr ⟨⟨_, rfl⟩, _, rfl⟩
        | some h' =>
          rw [hhost] at hstr
          rw [hstr]
          dsimp only [Option.map_some, Option.getD_some]
          have hdefault : p.port = none →
              Mirror.defaultPort (p.scheme ++ ":".toList) = p.portOrKnownDefault := by
            intro hport
            unfold Url.portOrKnownDefault Mirror.defaultPort
            rw [hport]
            rcases hhttp with h | h <;> rw [h] <;> decide
          rcases hosts_agree W (fun d hd => W.domain hp hhttp (hd ▸ hhost)) with
            ⟨h, hn, hrust, hscript⟩ | ⟨⟨e, hrust⟩, e', hscript⟩
          · rw [hrust, hscript]
            refine .inl ⟨h, _, _, hn, rfl, ?_⟩
            cases hport : p.port with
            | some port =>
              unfold Url.portOrKnownDefault
              rw [hport]
            | none =>
              dsimp only
              rw [hdefault hport]
          · rw [hrust, hscript]
            exact .inr ⟨⟨_, rfl⟩, _, rfl⟩

/-! ## 5. Matching -/

/-- A host of a rule that both sides read: below a wildcard there is a domain. -/
def RuleHost.Sound : RuleHost → Prop
  | .any => True
  | .named h wildcard =>
    Named h ∧ (wildcard = true → ∃ d, h = .domain d ∧ DomainText d ∧ ValidDomain d)

theorem Spelled.sound {h : RuleHost} (hs : Spelled u raw signed f h n) (hdotted : ¬ f.dotted)
    (hip : ¬ f.wildcardIp) : h.Sound := by
  obtain ⟨hcut, hport, hhost⟩ := hs
  cases hhost with
  | any => trivial
  | ipv6 ha => exact ⟨.inr ⟨_, rfl⟩, fun hw => (by cases hw)⟩
  | @name w t j h hstar hcontrols hr hn =>
    refine ⟨.inl ⟨j, hn⟩, ?_⟩
    intro hw
    have hdot : h.dropDot = h := not_not.mp hdotted
    rw [hdot] at hn ⊢
    have hname : NameText t := by
      cases hcut with
      | name hname => exact hname.of_append
    cases hn with
    | domain hvalid => exact ⟨_, rfl, (hr.plain W hname).2.2 _ rfl, hvalid⟩
    | ipv4 a => exact absurd ⟨hw, a, rfl⟩ hip

theorem ipv6Text_injective {a b : Ipv6Addr} (h : ipv6Text a = ipv6Text b) : a = b := by
  have ha := (W.text a).1
  rw [h, (W.text b).1] at ha
  exact (Option.some.inj ha).symm

/-- Two hosts have the same name on one side exactly when they have on the other. -/
theorem names_eq_iff {h h' : UrlHost} (hn : Named h) (hn' : Named h') :
    h.rustName = h'.rustName ↔ h.scriptName ipv6Text = h'.scriptName ipv6Text := by
  have hmixed : ∀ {h : UrlHost} {r : List Char} (a : Ipv6Addr), HostName h r →
      h.rustName ≠ a.text ∧ h.scriptName ipv6Text ≠ ipv6Text a := by
    intro h r a hn
    obtain ⟨hrust, hscript⟩ := hn.names ipv6Text
    refine ⟨?_, ?_⟩
    · intro heq
      exact hn.colon (hrust ▸ heq ▸ a.colon_mem_text)
    · intro heq
      exact hn.colon (hscript ▸ heq ▸ colon_mem_ipv6Text W a)
  rcases hn with ⟨r, hn⟩ | ⟨a, rfl⟩
  · rcases hn' with ⟨r', hn'⟩ | ⟨a', rfl⟩
    · obtain ⟨hrust, hscript⟩ := hn.names ipv6Text
      obtain ⟨hrust', hscript'⟩ := hn'.names ipv6Text
      rw [← hrust, ← hscript, ← hrust', ← hscript']
    · exact iff_of_false (hmixed a' hn).1 (hmixed a' hn).2
  · rcases hn' with ⟨r', hn'⟩ | ⟨a', rfl⟩
    · exact iff_of_false (fun h => (hmixed a hn').1 h.symm) fun h => (hmixed a hn').2 h.symm
    · exact ⟨fun h => by rw [Ipv6Addr.text_injective h],
        fun h => by rw [ipv6Text_injective W h]⟩

omit W in
/-- With the suffix in place, only what stands before it counts. -/
theorem wildcard_length_iff {name host : List Char} (h : '.' :: name <:+ host) :
    (Utf8.encode name).length + 1 < (Utf8.encode host).length ↔
      name.length + 1 < host.length := by
  obtain ⟨before, rfl⟩ := h
  have hdot : Utf8.encodeChar '.' = ['.'] := by decide
  rw [Utf8.encode_append, Utf8.encode_cons, hdot]
  simp only [List.length_append, List.length_cons, List.length_nil]
  cases before with
  | nil =>
    simp only [Utf8.encode_nil, List.length_nil]
    omega
  | cons c before =>
    have hne := List.length_pos_of_ne_nil (Utf8.encodeChar_ne_nil c)
    simp only [Utf8.encode_cons, List.length_append, List.length_cons]
    omega

omit W in
theorem portMatches_eq (n n' : Option Nat) : portMatches n n' = Mirror.portMatches n n' := rfl

/-- No address is below a domain. -/
theorem not_below {d : List Char} (hd : DomainText d) (hvalid : ValidDomain d) (a : Ipv6Addr) :
    ¬ '.' :: d <:+ a.text ∧ ¬ '.' :: d <:+ ipv6Text a := by
  refine ⟨?_, ?_⟩
  · intro h
    obtain ⟨-, hdigits⟩ := lastLabel_ipv6 (h.subset List.mem_cons_self)
    rw [lastLabel_suffix h] at hdigits
    exact hd.number hvalid.getLast?_ne hdigits
  · intro h
    exact (W.text a).2.1 (h.subset List.mem_cons_self)

/-- A rule of both sides holds of a target on one side exactly when it does on the other. -/
theorem matches_agree {h : RuleHost} (hs : h.Sound) {t : UrlHost} (ht : Named t)
    (s : List Char) (n n' : Option Nat) :
    (h.rule UrlHost.rustName n).matches ⟨s, t.rustName, n'⟩ =
      Mirror.ruleMatches ⟨t.scriptName ipv6Text, n'⟩ (h.rule (UrlHost.scriptName ipv6Text) n) := by
  cases h with
  | any => rfl
  | named h w =>
    obtain ⟨hn, hw⟩ := hs
    dsimp only [RuleHost.rule, NetworkRule.matches, Mirror.ruleMatches]
    rw [portMatches_eq, Bool.and_comm]
    congr 1
    cases w with
    | false =>
      rw [if_neg Bool.false_ne_true, if_neg Bool.false_ne_true, Bool.eq_iff_iff, beq_iff_eq,
        beq_iff_eq]
      exact names_eq_iff W ht hn
    | true =>
      obtain ⟨d, rfl, hd, hvalid⟩ := hw rfl
      rw [show (UrlHost.domain d).rustName = d from rfl,
        show (UrlHost.domain d).scriptName ipv6Text = d from rfl, if_pos rfl, if_pos rfl,
        Bool.eq_iff_iff, Bool.and_eq_true, Bool.and_eq_true, List.isSuffixOf_iff_suffix,
        List.isSuffixOf_iff_suffix]
      simp only [decide_eq_true_eq]
      rcases ht with ⟨r, hr⟩ | ⟨a, rfl⟩
      · obtain ⟨hrust, hscript⟩ := hr.names ipv6Text
        rw [← hrust, ← hscript]
        exact and_congr_right fun hsuffix => wildcard_length_iff hsuffix
      · obtain ⟨hrust, hscript⟩ := not_below W hd hvalid a
        exact iff_of_false (fun h => hrust h.1) fun h => hscript h.1

/-! ## 6. Policies -/

omit W in
/-- A list that is read from its start and refused at the first refusal. -/
theorem traversal_iff {read : List Char → Except (List Char) NetworkRule}
    {readAll : List (List Char) → Except (List Char) (List NetworkRule)}
    (hnil : readAll [] = .ok [])
    (hok : ∀ {value rule} values, read value = .ok rule →
      readAll (value :: values) = (readAll values).map (rule :: ·))
    (herror : ∀ {value e} values, read value = .error e →
      ∃ e', readAll (value :: values) = .error e')
    (values : List (List Char)) (rules : List NetworkRule) :
    readAll values = .ok rules ↔
      List.Forall₂ (fun value rule => read value = .ok rule) values rules := by
  induction values generalizing rules with
  | nil =>
    rw [hnil, List.forall₂_nil_left_iff, Except.ok.injEq]
    exact eq_comm
  | cons value values ih =>
    rw [List.forall₂_cons_left_iff]
    cases hread : read value with
    | error e =>
      obtain ⟨e', he⟩ := herror values hread
      rw [he]
      refine ⟨nofun, ?_⟩
      rintro ⟨rule, rest, h, -⟩
      cases h
    | ok rule =>
      rw [hok values hread]
      cases hrest : readAll values with
      | error e =>
        refine ⟨nofun, ?_⟩
        rintro ⟨rule', rest, -, hforall, -⟩
        rw [(ih rest).mpr hforall] at hrest
        cases hrest
      | ok rest =>
        constructor
        · rintro ⟨⟩
          exact ⟨rule, rest, rfl, (ih rest).mp hrest, rfl⟩
        · rintro ⟨rule', rest', h, hforall', rfl⟩
          cases h
          have hrest' := (ih rest').mpr hforall'
          rw [hrest] at hrest'
          cases hrest'
          rfl

omit W in
theorem parseRules_iff (kind : List Char) (values : List (List Char)) (rules : List NetworkRule) :
    parseRules u kind values = .ok rules ↔
      List.Forall₂ (fun value rule => NetworkRule.parse u value = .ok rule) values rules := by
  apply traversal_iff
  · rfl
  · intro value rule values h
    rw [parseRules, h]
  · intro value e values h
    rw [parseRules, h]
    exact ⟨_, rfl⟩

omit W in
theorem normalizeRuleList_iff (name : List Char) (values : List (List Char))
    (rules : List NetworkRule) : Mirror.normalizeRuleList u name values = .ok rules ↔
      List.Forall₂ (fun value rule => Mirror.parseRule u value = .ok rule) values rules := by
  apply traversal_iff
  · rfl
  · intro value rule values h
    rw [Mirror.normalizeRuleList, h]
  · intro value e values h
    rw [Mirror.normalizeRuleList, h]
    exact ⟨_, rfl⟩

omit W in
theorem exists_forall₂ {α β : Type} {R : α → β → Prop} (xs : List α) :
    (∃ ys, List.Forall₂ R xs ys) ↔ ∀ x ∈ xs, ∃ y, R x y := by
  induction xs with
  | nil => exact ⟨fun _ x hx => (by cases hx), fun _ => ⟨[], .nil⟩⟩
  | cons x xs ih =>
    constructor
    · rintro ⟨ys, hys⟩
      cases hys with
      | cons hy hrest =>
        intro z hz
        rcases List.mem_cons.mp hz with rfl | hz
        · exact ⟨_, hy⟩
        · exact ih.mp ⟨_, hrest⟩ z hz
    · intro h
      obtain ⟨y, hy⟩ := h x List.mem_cons_self
      obtain ⟨ys, hys⟩ := ih.mpr fun z hz => h z (List.mem_cons_of_mem x hz)
      exact ⟨y :: ys, .cons hy hys⟩

/-- Rust reads the rules of the grammar without what only the script reads. -/
theorem rust_reads_iff (raw : List Char) :
    (∃ r, NetworkRule.parse u raw = .ok r) ↔ Readable u raw ∧ ¬ ScriptOnly u raw := by
  constructor
  · rintro ⟨r, hr⟩
    obtain ⟨signed, f, h, n, hs, hdotted, hip, -⟩ := spelled_of_parse W hr
    refine ⟨⟨signed, f, h, n, hs⟩, ?_⟩
    rintro ⟨signed', f', h', n', hs', hor⟩
    obtain ⟨-, rfl, -, -⟩ := hs.unique hs'
    exact hor.elim hdotted hip
  · rintro ⟨⟨signed, f, h, n, hs⟩, hnot⟩
    exact ⟨_, hs.parse W (fun hd => hnot ⟨signed, f, h, n, hs, .inl hd⟩)
      fun hw => hnot ⟨signed, f, h, n, hs, .inr hw⟩⟩

/-- The script reads the rules of the grammar without what only Rust reads. -/
theorem script_reads_iff (raw : List Char) :
    (∃ r, Mirror.parseRule u raw = .ok r) ↔ Readable u raw ∧ ¬ RustOnly u raw := by
  constructor
  · rintro ⟨r, hr⟩
    obtain ⟨f, h, n, hs, hpadded, -⟩ := spelled_of_mirror_parse W hr
    refine ⟨⟨false, f, h, n, hs⟩, ?_⟩
    rintro ⟨signed', f', h', n', hs', hor⟩
    obtain ⟨rfl, rfl, -, -⟩ := hs.unique hs'
    exact hor.elim (fun h => by cases h) hpadded
  · rintro ⟨⟨signed, f, h, n, hs⟩, hnot⟩
    cases signed with
    | true => exact absurd ⟨true, f, h, n, hs, .inl rfl⟩ hnot
    | false => exact ⟨_, hs.mirror_parse W fun hp => hnot ⟨false, f, h, n, hs, .inr hp⟩⟩

/-- The rules that the two sides read of one list. -/
def SameRules (ipv6Text : Ipv6Addr → List Char) (rules rules' : List NetworkRule) : Prop :=
  List.Forall₂ (fun r r' => ∃ h n, RuleHost.Sound h ∧ r = h.rule UrlHost.rustName n ∧
    r' = h.rule (UrlHost.scriptName ipv6Text) n) rules rules'

theorem sameRules {values : List (List Char)} {rules rules' : List NetworkRule}
    (hrust : List.Forall₂ (fun v r => NetworkRule.parse u v = .ok r) values rules)
    (hscript : List.Forall₂ (fun v r => Mirror.parseRule u v = .ok r) values rules') :
    SameRules ipv6Text rules rules' := by
  induction hrust generalizing rules' with
  | nil =>
    cases hscript
    exact .nil
  | cons hr hrest ih =>
    cases hscript with
    | cons hr' hrest' =>
      refine .cons ?_ (ih hrest')
      obtain ⟨signed, f, h, n, hs, hdotted, hip, rfl⟩ := spelled_of_parse W hr
      obtain ⟨f', h', n', hs', -, rfl⟩ := spelled_of_mirror_parse W hr'
      obtain ⟨-, -, rfl, rfl⟩ := hs.unique hs'
      exact ⟨h, n, hs.sound W hdotted hip, rfl, rfl⟩

theorem SameRules.any_eq {rules rules' : List NetworkRule} (h : SameRules ipv6Text rules rules')
    {t : UrlHost} (ht : Named t) (s : List Char) (n : Option Nat) :
    rules.any (·.matches ⟨s, t.rustName, n⟩) =
      rules'.any (Mirror.ruleMatches ⟨t.scriptName ipv6Text, n⟩) := by
  induction h with
  | nil => rfl
  | cons hr hrest ih =>
    obtain ⟨host, port, hsound, rfl, rfl⟩ := hr
    rw [List.any_cons, List.any_cons, ih, matches_agree W hsound ht]

/-- The two policies are the same on a configuration. -/
def SamePolicy (u : UrlCrate) (config : NetworkPolicyConfig) : Prop :=
  ((∃ e, NetworkPolicy.tryFromConfig u config = .error e) ↔
    ∃ e, Mirror.normalizeNetworkPolicy u config = .error e) ∧
  ∀ p, NetworkPolicy.tryFromConfig u config = .ok p → ∀ url,
    p.check u url = .ok () ↔ Mirror.isNetworkAllowed u url config = .ok true

/-- Where all rules are in the common grammar, some have a feature that only Rust reads exactly
    when some have a feature that only the script reads. -/
def CommonRules (u : UrlCrate) (config : NetworkPolicyConfig) : Prop :=
  (∀ raw ∈ config.allow ++ config.deny, Readable u raw) →
    ((∃ raw ∈ config.allow ++ config.deny, RustOnly u raw) ↔
      ∃ raw ∈ config.allow ++ config.deny, ScriptOnly u raw)

omit W in
theorem tryFromConfig_iff (config : NetworkPolicyConfig) (p : NetworkPolicy) :
    NetworkPolicy.tryFromConfig u config = .ok p ↔
      List.Forall₂ (fun v r => NetworkRule.parse u v = .ok r) config.allow p.allow ∧
      List.Forall₂ (fun v r => NetworkRule.parse u v = .ok r) config.deny p.deny ∧
      p.enabled = config.enabled ∧ p.defaultAction = config.defaultAction := by
  rw [← parseRules_iff "allow".toList, ← parseRules_iff "deny".toList]
  unfold NetworkPolicy.tryFromConfig
  obtain ⟨enabled, action, allow, deny⟩ := p
  cases parseRules u "allow".toList config.allow with
  | error e => exact ⟨nofun, fun h => (by cases h.1)⟩
  | ok allow' =>
    cases parseRules u "deny".toList config.deny with
    | error e => exact ⟨nofun, fun h => (by cases h.2.1)⟩
    | ok deny' =>
      constructor
      · rintro ⟨⟩
        exact ⟨rfl, rfl, rfl, rfl⟩
      · rintro ⟨⟨⟩, ⟨⟩, ⟨⟩, ⟨⟩⟩
        rfl

omit W in
theorem normalizeNetworkPolicy_iff (config : NetworkPolicyConfig) (p : NetworkPolicy) :
    Mirror.normalizeNetworkPolicy u config = .ok p ↔
      List.Forall₂ (fun v r => Mirror.parseRule u v = .ok r) config.allow p.allow ∧
      List.Forall₂ (fun v r => Mirror.parseRule u v = .ok r) config.deny p.deny ∧
      p.enabled = config.enabled ∧ p.defaultAction = config.defaultAction := by
  rw [← normalizeRuleList_iff "allow".toList, ← normalizeRuleList_iff "deny".toList]
  unfold Mirror.normalizeNetworkPolicy
  obtain ⟨enabled, action, allow, deny⟩ := p
  cases Mirror.normalizeRuleList u "allow".toList config.allow with
  | error e => exact ⟨nofun, fun h => (by cases h.1)⟩
  | ok allow' =>
    dsimp only
    cases Mirror.normalizeRuleList u "deny".toList config.deny with
    | error e => exact ⟨nofun, fun h => (by cases h.2.1)⟩
    | ok deny' =>
      constructor
      · rintro ⟨⟩
        exact ⟨rfl, rfl, rfl, rfl⟩
      · rintro ⟨⟨⟩, ⟨⟩, ⟨⟩, ⟨⟩⟩
        rfl

omit W in
/-- A configuration is accepted when each of its rules is read. -/
theorem accepted_iff {read : List Char → Except (List Char) NetworkRule}
    {accept : NetworkPolicyConfig → Except (List Char) NetworkPolicy}
    (haccept : ∀ config p, accept config = .ok p ↔
      List.Forall₂ (fun v r => read v = .ok r) config.allow p.allow ∧
      List.Forall₂ (fun v r => read v = .ok r) config.deny p.deny ∧
      p.enabled = config.enabled ∧ p.defaultAction = config.defaultAction)
    (config : NetworkPolicyConfig) :
    (∃ e, accept config = .error e) ↔
      ¬ ∀ raw ∈ config.allow ++ config.deny, ∃ r, read raw = .ok r := by
  have hok : (∃ p, accept config = .ok p) ↔
      ∀ raw ∈ config.allow ++ config.deny, ∃ r, read raw = .ok r := by
    rw [List.forall_mem_append, ← exists_forall₂, ← exists_forall₂]
    constructor
    · rintro ⟨p, hp⟩
      obtain ⟨hallow, hdeny, -, -⟩ := (haccept config p).mp hp
      exact ⟨⟨_, hallow⟩, _, hdeny⟩
    · rintro ⟨⟨allow, hallow⟩, deny, hdeny⟩
      exact ⟨⟨config.enabled, config.defaultAction, allow, deny⟩,
        (haccept config _).mpr ⟨hallow, hdeny, rfl, rfl⟩⟩
  rw [← hok]
  cases accept config with
  | error e => simp
  | ok p => simp

/-- On an accepted configuration the two sides let the same URLs pass. -/
theorem check_agrees {config : NetworkPolicyConfig} {p p' : NetworkPolicy}
    (hp : NetworkPolicy.tryFromConfig u config = .ok p)
    (hp' : Mirror.normalizeNetworkPolicy u config = .ok p') (url : List Char) :
    p.check u url = .ok () ↔ Mirror.isNetworkAllowed u url config = .ok true := by
  obtain ⟨hallow, hdeny, henabled, haction⟩ := (tryFromConfig_iff config p).mp hp
  obtain ⟨hallow', hdeny', henabled', haction'⟩ := (normalizeNetworkPolicy_iff config p').mp hp'
  rw [Mirror.isNetworkAllowed, hp', Except.map, Except.ok.injEq]
  unfold NetworkPolicy.check Mirror.isAllowed
  rw [henabled, henabled', haction, haction']
  split
  · exact iff_of_false nofun Bool.false_ne_true
  · rcases targets_agree W url with ⟨h, s, n, hn, hrust, hscript⟩ | ⟨⟨e, hrust⟩, e', hscript⟩
    · rw [hrust, hscript]
      dsimp only
      rw [(sameRules W hdeny hdeny').any_eq W hn s n, (sameRules W hallow hallow').any_eq W hn s n]
      split
      · exact iff_of_false nofun Bool.false_ne_true
      · split
        · exact iff_of_true rfl rfl
        · cases config.defaultAction with
          | allow => exact iff_of_true rfl rfl
          | deny => exact iff_of_false nofun Bool.false_ne_true
    · rw [hrust, hscript]
      exact iff_of_false nofun Bool.false_ne_true

/-- The two policies are the same exactly where no feature of one side tells them apart. -/
theorem policies_agree_iff (config : NetworkPolicyConfig) :
    SamePolicy u config ↔ CommonRules u config := by
  have hrust := accepted_iff (fun c p => tryFromConfig_iff (u := u) c p) config
  have hscript := accepted_iff (fun c p => normalizeNetworkPolicy_iff (u := u) c p) config
  have hall : ∀ {P Q : List Char → Prop}, (∀ raw ∈ config.allow ++ config.deny, P raw ∧ ¬ Q raw) ↔
      (∀ raw ∈ config.allow ++ config.deny, P raw) ∧
        ¬ ∃ raw ∈ config.allow ++ config.deny, Q raw := by
    intro P Q
    constructor
    · intro h
      exact ⟨fun raw hraw => (h raw hraw).1, fun ⟨raw, hraw, hq⟩ => (h raw hraw).2 hq⟩
    · rintro ⟨hp, hq⟩ raw hraw
      exact ⟨hp raw hraw, fun h => hq ⟨raw, hraw, h⟩⟩
  simp only [rust_reads_iff W, hall] at hrust
  simp only [script_reads_iff W, hall] at hscript
  have hcommon : ((∃ e, NetworkPolicy.tryFromConfig u config = .error e) ↔
      ∃ e, Mirror.normalizeNetworkPolicy u config = .error e) ↔ CommonRules u config := by
    rw [hrust, hscript, CommonRules]
    generalize (∀ raw ∈ config.allow ++ config.deny, Readable u raw) = readable
    generalize (∃ raw ∈ config.allow ++ config.deny, RustOnly u raw) = rust
    generalize (∃ raw ∈ config.allow ++ config.deny, ScriptOnly u raw) = script
    tauto
  rw [SamePolicy, hcommon, and_iff_left_iff_imp]
  intro hsame p hp url
  cases hp' : Mirror.normalizeNetworkPolicy u config with
  | ok p' => exact check_agrees W hp hp' url
  | error e =>
    obtain ⟨e', he'⟩ := (hcommon.mpr hsame).mpr ⟨e, hp'⟩
    rw [hp] at he'
    cases he'

/-! ## 7. A parser of one domain and of addresses -/

omit W

def exampleDomain : List Char := "example.com".toList

/-- An HTTP URL with a host only. -/
def exampleUrl (h : UrlHost) : Url :=
  ⟨"http".toList, [], none, some h, some (h.text Ipv6Addr.fullText), none,
    hostUrl (h.text Ipv6Addr.fullText)⟩

/-- What stands between `http://` and the last slash. -/
def exampleHost (t : List Char) : Option UrlHost :=
  if t = exampleDomain then some (.domain exampleDomain)
  else match parseIpv4 t with
    | some a => some (.ipv4 a)
    | none =>
      if t.head? = some '[' ∧ t.getLast? = some ']' then
        (parseIpv6 (t.drop 1).dropLast).map .ipv6
      else none

def exampleCrate : UrlCrate where
  parse s :=
    let t := (s.drop 7).dropLast
    if s = hostUrl t then
      match exampleHost t with
      | some h => .ok (exampleUrl h)
      | none => .error "invalid host".toList
    else .error "invalid URL".toList
  join _ _ := .error "invalid URL".toList

theorem hostUrl_parts (t : List Char) : ((hostUrl t).drop 7).dropLast = t := by
  have hlength : "http://".toList.length = 7 := by decide
  unfold hostUrl
  rw [List.append_assoc, List.drop_left' hlength, show "/".toList = ['/'] from rfl,
    List.dropLast_concat]

theorem exampleCrate_parse_iff (t : List Char) (p : Url) :
    exampleCrate.parse (hostUrl t) = .ok p ↔ ∃ h, exampleHost t = some h ∧ p = exampleUrl h := by
  unfold exampleCrate
  dsimp only
  rw [hostUrl_parts, if_pos rfl]
  cases exampleHost t with
  | none => simp
  | some h => simp [eq_comm]

theorem exampleCrate_parse {s : List Char} {p : Url} (hp : exampleCrate.parse s = .ok p) :
    ∃ t h, s = hostUrl t ∧ exampleHost t = some h ∧ p = exampleUrl h := by
  by_cases hs : s = hostUrl (s.drop 7).dropLast
  · rw [hs, exampleCrate_parse_iff] at hp
    obtain ⟨h, hh, hp⟩ := hp
    exact ⟨_, h, hs, hh, hp⟩
  · unfold exampleCrate at hp
    dsimp only at hp
    rw [if_neg hs] at hp
    cases hp

/-- What the hosts of the example are. -/
theorem exampleHost_cases (hh : exampleHost t = some h) :
    (t = exampleDomain ∧ h = .domain exampleDomain) ∨
    (∃ a, parseIpv4 t = some a ∧ h = .ipv4 a) ∨
    ∃ a s, t = '[' :: s ++ [']'] ∧ parseIpv6 s = some a ∧ h = .ipv6 a := by
  unfold exampleHost at hh
  split at hh
  next hd => exact .inl ⟨hd, (Option.some.inj hh).symm⟩
  next =>
    cases hv4 : parseIpv4 t with
    | some a =>
      rw [hv4] at hh
      exact .inr (.inl ⟨a, rfl, (Option.some.inj hh).symm⟩)
    | none =>
      rw [hv4] at hh
      dsimp only at hh
      split at hh
      next hends =>
        obtain ⟨a, ha, rfl⟩ := Option.map_eq_some_iff.mp hh
        obtain ⟨s, rfl⟩ := List.head?_eq_some_iff.mp hends.1
        have hs : s ≠ [] := by
          rintro rfl
          cases ha
        rw [List.getLast?_cons_of_ne_nil hs] at hends
        obtain ⟨s, rfl⟩ := List.getLast?_eq_some_iff.mp hends.2
        refine .inr (.inr ⟨a, s, rfl, ?_, rfl⟩)
        rw [List.drop_succ_cons, List.drop_zero, List.dropLast_concat] at ha
        exact ha
      next => cases hh

theorem bracketUrl_eq (t : List Char) : bracketUrl t = hostUrl ('[' :: t ++ [']']) := by
  unfold bracketUrl hostUrl
  rw [show "http://[".toList = "http://".toList ++ ['['] from rfl,
    show "]/".toList = [']'] ++ "/".toList from rfl]
  simp only [List.append_assoc, List.cons_append, List.nil_append]

theorem exampleDomain_text : DomainText exampleDomain where
  graphic := by
    have h : (exampleDomain.all fun c => decide (0x20 < c.toNat ∧ c.toNat < 0x7f)) = true := by
      decide
    intro c hc
    simpa using List.all_eq_true.mp h c hc
  lower := by decide
  host := by
    have h : (exampleDomain.all fun c => !isSeparator c && !isC0 c) = true := by decide
    refine ⟨?_, ?_⟩ <;>
    · intro c hc
      have := List.all_eq_true.mp h c hc
      simp only [Bool.and_eq_true, Bool.not_eq_true'] at this
      first
      | exact this.1
      | exact this.2
  name := ⟨by decide, by decide, by decide⟩
  number := by
    intro _ hall
    have h : isDigitOf 10 'c' = true := hall 'c' (by decide)
    exact absurd h (by decide)

theorem exampleCrate_whatwg : Whatwg exampleCrate Ipv6Addr.fullText where
  hostStr := by
    intro s p hp
    obtain ⟨t, h, -, -, rfl⟩ := exampleCrate_parse hp
    rfl
  password := by
    intro s p hp
    obtain ⟨t, h, -, -, rfl⟩ := exampleCrate_parse hp
    exact fun h => by cases h
  domain := by
    intro s p d hp _ hhost
    obtain ⟨t, h, -, hh, rfl⟩ := exampleCrate_parse hp
    cases hhost
    rcases exampleHost_cases hh with ⟨-, heq⟩ | ⟨a, -, heq⟩ | ⟨a, s, -, -, heq⟩
    · cases heq
      exact exampleDomain_text
    · cases heq
    · cases heq
  plain := by
    intro t p hhost hname hp
    obtain ⟨h, hh, rfl⟩ := (exampleCrate_parse_iff t p).mp hp
    refine ⟨rfl, ⟨h, rfl, ?_⟩, ?_⟩
    · rintro a rfl
      rcases exampleHost_cases hh with ⟨-, heq⟩ | ⟨b, -, heq⟩ | ⟨b, s, rfl, -, -⟩
      · cases heq
      · cases heq
      · exact hname.opening List.mem_cons_self
    · have hgraphic : ∀ c ∈ t, 0x20 < c.toNat ∧ c.toNat < 0x7f := by
        rcases exampleHost_cases hh with ⟨rfl, -⟩ | ⟨b, hb, -⟩ | ⟨b, s, rfl, -, -⟩
        · exact exampleDomain_text.graphic
        · intro c hc
          rcases parseIpv4_chars hb c hc with h | rfl
          · have := address_range (.inl (isDigitOf_ten h))
            omega
          · decide
        · exact absurd List.mem_cons_self hname.opening
      intro c hc
      have := graphic_char (hgraphic c hc)
      exact ⟨this.1, this.2.1⟩
  dot := by
    intro t p d _ _ _ _ hp hhost
    obtain ⟨h, hh, rfl⟩ := (exampleCrate_parse_iff t p).mp hp
    cases hhost
    rcases exampleHost_cases hh with ⟨-, heq⟩ | ⟨b, -, heq⟩ | ⟨b, s, -, -, heq⟩
    · cases heq
      decide
    · cases heq
    · cases heq
  ipv4 := by
    intro t a ha
    have hne : t ≠ exampleDomain := by
      rintro rfl
      have hnone : parseIpv4 exampleDomain = none := by decide
      rw [hnone] at ha
      cases ha
    refine ⟨_, (exampleCrate_parse_iff t _).mpr ⟨.ipv4 a, ?_, rfl⟩, rfl⟩
    rw [exampleHost, if_neg hne, ha]
  ipv6 := by
    intro t a ha
    rw [bracketUrl_eq]
    refine ⟨_, (exampleCrate_parse_iff _ _).mpr ⟨.ipv6 a, ?_, rfl⟩, rfl⟩
    have hne : '[' :: t ++ [']'] ≠ exampleDomain := by
      intro h
      have hmem : '[' ∈ exampleDomain := h ▸ List.mem_cons_self
      exact absurd hmem (by decide)
    have hcolon : ':' ∈ '[' :: t ++ [']'] :=
      List.mem_cons_of_mem _ (List.mem_append_left _ (parseIpv6_took ha).2)
    have hlast : ('[' :: t ++ [']']).getLast? = some ']' := List.getLast?_concat
    rw [exampleHost, if_neg hne, parseIpv4_none hcolon]
    dsimp only
    rw [if_pos ⟨rfl, hlast⟩, List.cons_append, List.drop_succ_cons, List.drop_zero,
      List.dropLast_concat, ha]
    rfl
  bracket := by
    intro t p _ _ hp
    rw [bracketUrl_eq] at hp
    obtain ⟨h, hh, rfl⟩ := (exampleCrate_parse_iff _ p).mp hp
    rcases exampleHost_cases hh with ⟨heq, -⟩ | ⟨b, hb, -⟩ | ⟨b, s, heq, hs, -⟩
    · have hmem : '[' ∈ exampleDomain := heq ▸ List.mem_cons_self
      exact absurd hmem (by decide)
    · rcases parseIpv4_chars hb '[' List.mem_cons_self with h | h
      · exact absurd h (by decide)
      · cases h
    · rw [List.append_cancel_right (List.cons.inj heq).2, hs]
      rfl
  text := fun a => ⟨parseIpv6_fullText a, dot_not_mem_fullText a, fullText_lower a⟩

/-- A rule with a plus sign before its port. -/
def signedPort : NetworkPolicyConfig := ⟨true, .deny, ["example.com:+80".toList], []⟩

theorem policies_agree_signedPort :
    SamePolicy exampleCrate signedPort ↔ CommonRules exampleCrate signedPort :=
  policies_agree_iff exampleCrate_whatwg signedPort

/-- Rust reads the port, and the script refuses the rule. -/
theorem policies_differ : ¬ ∀ (u : UrlCrate) (ipv6Text : Ipv6Addr → List Char),
    Whatwg u ipv6Text → ∀ config, SamePolicy u config := by
  intro h
  have hsame := (h exampleCrate Ipv6Addr.fullText exampleCrate_whatwg signedPort).1
  have hscript : ∃ e, Mirror.normalizeNetworkPolicy exampleCrate signedPort = .error e :=
    ⟨_, rfl⟩
  obtain ⟨e, he⟩ := hsame.mpr hscript
  have hrust : NetworkPolicy.tryFromConfig exampleCrate signedPort =
      .ok ⟨true, .deny, [.host exampleDomain false (some 80)], []⟩ := by decide
  rw [hrust] at he
  cases he

end Wasmsh.Network

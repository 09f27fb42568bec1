import Wasmsh.Assignment
import Wasmsh.Library.IpText
import Wasmsh.Library.Utf8

/-!
# Network policy

`wasmsh-utils/src/net_types.rs`: rules of hosts and ports, the policy that checks a URL against
them, and the requests, responses and errors of the utilities.

Parsing and joining URLs is the work of a crate that is not part of the repository.  It is a
parameter, with what the code reads of a parsed URL.
-/

namespace Wasmsh.Network

open IpText

/-! ## 1. URLs -/

/-- `url::Host`. -/
inductive UrlHost where
  | domain (name : List Char)
  | ipv4 (a : Ipv4Addr)
  | ipv6 (a : Ipv6Addr)
  deriving DecidableEq

/-- What the code reads of a `url::Url`: `port` is the explicit one, `href` the text the URL is
    converted to. -/
structure Url where
  scheme : List Char
  username : List Char
  password : Option (List Char)
  host : Option UrlHost
  hostStr : Option (List Char)
  port : Option Nat
  href : List Char
  deriving DecidableEq

/-- `Url::parse` and `Url::join`; an error is its text. -/
structure UrlCrate where
  parse : List Char → Except (List Char) Url
  join : Url → List Char → Except (List Char) Url

/-- `port_or_known_default`. -/
def Url.portOrKnownDefault (u : Url) : Option Nat :=
  match u.port with
  | some port => some port
  | none =>
    if u.scheme = "http".toList ∨ u.scheme = "ws".toList then some 80
    else if u.scheme = "https".toList ∨ u.scheme = "wss".toList then some 443
    else if u.scheme = "ftp".toList then some 21
    else none

/-! ## 2. Errors, requests and responses -/

/-- `NetworkError`. -/
inductive NetworkError where
  | hostDenied (message : List Char)
  | connectionFailed (message : List Char)
  | timeout (message : List Char)
  | invalidUrl (message : List Char)
  | responseTooLarge (message : List Char)
  | tooManyRedirects (message : List Char)
  | other (message : List Char)
  deriving DecidableEq, Repr

/-- `HttpRequest`. -/
structure HttpRequest where
  url : List Char
  method : List Char
  headers : List (List Char × List Char)
  body : Option (List UInt8)
  followRedirects : Bool
  timeoutMs : Option Nat
  connectTimeoutMs : Option Nat
  maxRedirs : Option Nat
  maxResponseBytes : Option Nat
  deriving DecidableEq, Repr

/-- `HttpResponse`. -/
structure HttpResponse where
  status : Nat
  headers : List (List Char × List Char)
  body : List UInt8
  deriving DecidableEq, Repr

/-! ## 3. Hosts and ports of rules -/

/-- `str::parse::<u16>`: an optional plus sign and digits. -/
def parseU16 (s : List Char) : Option Nat :=
  let digits := if s.head? = some '+' then s.tail else s
  if digits.isEmpty || !digits.all Char.isDigit then none
  else
    let n := digits.foldl (fun n c => n * 10 + (c.toNat - '0'.toNat)) 0
    if n < 65536 then some n else none

/-- `parse_port`. -/
def parsePort (raw : List Char) : Except (List Char) (Option Nat) :=
  if raw.isEmpty then .error "port is empty".toList
  else match parseU16 raw with
    | some n => .ok (some n)
    | none => .error "port must be a decimal value from 0 to 65535".toList

/-- What stands before and after the last occurrence of `c`. -/
def rsplitOnce (c : Char) (s : List Char) : Option (List Char × List Char) :=
  if c ∈ s then
    let after := (s.reverse.takeWhile (· ≠ c)).reverse
    some (s.take (s.length - after.length - 1), after)
  else none

/-- `split_rule_port`. -/
def splitRulePort (raw : List Char) : Except (List Char) (List Char × Option Nat) :=
  match raw with
  | '[' :: rest =>
    if ']' ∈ rest then
      let host := rest.takeWhile (· ≠ ']')
      match rest.drop (host.length + 1) with
      | [] => .ok (host, none)
      | ':' :: port => (parsePort port).map fun port => (host, port)
      | _ => .error "characters after bracketed IPv6 host are not allowed".toList
    else .error "bracketed IPv6 rule is missing ']'".toList
  | _ =>
    if '[' ∈ raw ∨ ']' ∈ raw then .error "IPv6 rules must use brackets".toList
    else if 1 < raw.count ':' then .error "IPv6 rules must use brackets".toList
    else match rsplitOnce ':' raw with
      | some (host, port) =>
        if host.isEmpty then .error "rule host is empty".toList
        else (parsePort port).map fun port => (host, port)
      | none => .ok (raw, none)

/-- `strip_suffix` of one character. -/
def stripSuffix (c : Char) (s : List Char) : Option (List Char) :=
  if s.getLast? = some c then some s.dropLast else none

/-- Without the brackets, where there are both. -/
def stripBrackets (raw : List Char) : List Char :=
  match raw with
  | '[' :: rest => (stripSuffix ']' rest).getD raw
  | _ => raw

/-- `validate_domain`. -/
def validateDomain (host : List Char) : Except (List Char) Unit :=
  if 253 < (Utf8.encode host).length then .error "domain exceeds 253 bytes".toList
  else if (host.splitOn '.').all fun label =>
      !label.isEmpty && (Utf8.encode label).length ≤ 63 && label.head? ≠ some '-' &&
        label.getLast? ≠ some '-' &&
        label.all fun c => ('a' ≤ c && c ≤ 'z') || c.isDigit || c == '-' then .ok ()
  else .error "domain contains an invalid label".toList

variable (u : UrlCrate)

/-- `normalize_rule_host`. -/
def normalizeRuleHost (raw : List Char) : Except (List Char) (List Char) :=
  let raw := stripBrackets ((stripSuffix '.' raw).getD raw)
  if raw.isEmpty || raw.getLast? = some '.' ||
      raw.any (fun c => "/@?#%\\".toList.contains c) then .error "invalid host syntax".toList
  else match parseIp raw with
    | some ip => .ok ip.text
    | none =>
      match u.parse ("http://".toList ++ raw ++ "/".toList) with
      | .error e => .error ("invalid host: ".toList ++ e)
      | .ok parsed =>
        match parsed.host with
        | some (.domain host) =>
          (validateDomain (host.map Char.toLower)).map fun _ => host.map Char.toLower
        | some (.ipv4 ip) => (validateDomain ip.text).map fun _ => ip.text
        | some (.ipv6 ip) => (validateDomain ip.text).map fun _ => ip.text
        | none => .error "host is missing".toList

/-! ## 4. Rules -/

/-- `NetworkRule`. -/
inductive NetworkRule where
  | any (port : Option Nat)
  | host (host : List Char) (wildcard : Bool) (port : Option Nat)
  deriving DecidableEq, Repr

/-- `NetworkRule::parse`. -/
def NetworkRule.parse (raw : List Char) : Except (List Char) NetworkRule :=
  if raw.isEmpty || trim raw ≠ raw || raw.any isControl then
    .error "rule must not be empty, padded, or contain control characters".toList
  else match splitRulePort raw with
    | .error e => .error e
    | .ok (hostPart, port) =>
      if raw.head? = some '[' ∧ ¬ (parseIp hostPart).any IpAddr.isV6 then
        .error "bracketed rules must contain an IPv6 address".toList
      else if hostPart = ['*'] then .ok (.any port)
      else if ['*', '.'].isPrefixOf hostPart then
        let suffix := hostPart.drop 2
        if suffix.isEmpty || suffix.contains '*' || suffix.contains '?' then
          .error "wildcard must be exactly '*.' followed by a host".toList
        else match normalizeRuleHost u suffix with
          | .error e => .error e
          | .ok name =>
            if (parseIp name).isSome then
              .error "wildcard rules cannot target an IP address".toList
            else .ok (.host name true port)
      else if hostPart.contains '*' || hostPart.contains '?' then
        .error "only '*' and '*.example.com' wildcards are supported".toList
      else match normalizeRuleHost u hostPart with
        | .error e => .error e
        | .ok name => .ok (.host name false port)

/-- `NormalizedTarget`. -/
structure NormalizedTarget where
  scheme : List Char
  host : List Char
  port : Option Nat
  deriving DecidableEq, Repr

/-- `NormalizedTarget::parse`. -/
def NormalizedTarget.parse (raw : List Char) : Except NetworkError NormalizedTarget :=
  match u.parse raw with
  | .error e => .error (.invalidUrl e)
  | .ok parsed =>
    if parsed.scheme ≠ "http".toList ∧ parsed.scheme ≠ "https".toList then
      .error (.invalidUrl ("scheme '".toList ++ parsed.scheme ++ "' is not supported".toList))
    else if !parsed.username.isEmpty || parsed.password.isSome then
      .error (.invalidUrl "URL userinfo is not allowed".toList)
    else match parsed.hostStr with
      | none => .error (.invalidUrl "URL has no host".toList)
      | some host =>
        match normalizeRuleHost u host with
        | .error e => .error (.invalidUrl ("invalid URL host: ".toList ++ e))
        | .ok host => .ok ⟨parsed.scheme, host, parsed.portOrKnownDefault⟩

/-- `NormalizedTarget::display`. -/
def NormalizedTarget.display (t : NormalizedTarget) : List Char :=
  let host := if t.host.contains ':' then '[' :: t.host ++ [']'] else t.host
  match t.port with
  | some port => t.scheme ++ "://".toList ++ host ++ ':' :: Nat.toDigits 10 port
  | none => t.scheme ++ "://".toList ++ host

/-- `port_matches`. -/
def portMatches (allowed actual : Option Nat) : Bool := allowed.isNone || allowed == actual

/-- `NetworkRule::matches`. -/
def NetworkRule.matches (target : NormalizedTarget) : NetworkRule → Bool
  | .any port => portMatches port target.port
  | .host name wildcard port =>
    (if wildcard then
      ('.' :: name).isSuffixOf target.host &&
        (Utf8.encode name).length + 1 < (Utf8.encode target.host).length
    else target.host == name) && portMatches port target.port

/-! ## 5. The policy -/

/-- `NetworkDefaultAction`. -/
inductive DefaultAction where
  | deny
  | allow
  deriving DecidableEq, Repr

/-- `NetworkPolicyConfig`. -/
structure NetworkPolicyConfig where
  enabled : Bool
  defaultAction : DefaultAction
  allow : List (List Char)
  deny : List (List Char)
  deriving DecidableEq, Repr

/-- `NetworkPolicy`. -/
structure NetworkPolicy where
  enabled : Bool
  defaultAction : DefaultAction
  allow : List NetworkRule
  deny : List NetworkRule
  deriving DecidableEq, Repr

/-- `parse_rules`: the first rule that is refused gives the error. -/
def parseRules (kind : List Char) : List (List Char) → Except (List Char) (List NetworkRule)
  | [] => .ok []
  | value :: values =>
    match NetworkRule.parse u value with
    | .error e => .error (kind ++ " rule '".toList ++ value ++ "': ".toList ++ e)
    | .ok rule => (parseRules kind values).map (rule :: ·)

/-- `NetworkPolicy::try_from_config`. -/
def NetworkPolicy.tryFromConfig (config : NetworkPolicyConfig) :
    Except (List Char) NetworkPolicy := do
  let allow ← parseRules u "allow".toList config.allow
  let deny ← parseRules u "deny".toList config.deny
  return ⟨config.enabled, config.defaultAction, allow, deny⟩

/-- `NetworkPolicy::check`: a rule that denies comes before the rules that allow. -/
def NetworkPolicy.check (p : NetworkPolicy) (url : List Char) : Except NetworkError Unit :=
  if !p.enabled then .error (.hostDenied "network policy is disabled".toList)
  else match NormalizedTarget.parse u url with
    | .error e => .error e
    | .ok target =>
      if p.deny.any (·.matches target) then
        .error (.hostDenied ("normalized target '".toList ++ target.display ++
          "' matches a deny rule".toList))
      else if p.allow.any (·.matches target) then .ok ()
      else match p.defaultAction with
        | .allow => .ok ()
        | .deny => .error (.hostDenied ("normalized target '".toList ++ target.display ++
            "' is not allowed".toList))

/-- `validate_http_url`. -/
def validateHttpUrl (url : List Char) : Except NetworkError Unit :=
  (NormalizedTarget.parse u url).map fun _ => ()

end Wasmsh.Network

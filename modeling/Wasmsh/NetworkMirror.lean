import Wasmsh.Network

/-!
# The network policy of the JavaScript hosts

`packages/npm/wasmsh-pyodide/lib/allowlist.mjs`, which mirrors the policy of `net_types.rs` for
the exits that do not pass through Rust.  What it throws is an error here.

`new URL` and the crate are the same parser: `JsUrl.ofUrl` is what the script reads of a parsed
URL.  Where the crate has no password, host or port, the script sees an empty string.
-/

namespace Wasmsh.Network.Mirror

open IpText

/-! ## 1. Strings and URLs of the script -/

/-- The white space and line ends that `String.prototype.trim` removes. -/
def isTrimmed (c : Char) : Bool :=
  let n := c.toNat
  (9 ≤ n && n ≤ 13) || n == 0x20 || n == 0xA0 || n == 0x1680 || (0x2000 ≤ n && n ≤ 0x200A) ||
    n == 0x2028 || n == 0x2029 || n == 0x202F || n == 0x205F || n == 0x3000 || n == 0xFEFF

/-- `String.prototype.trim`. -/
def trim (s : List Char) : List Char :=
  ((s.dropWhile isTrimmed).reverse.dropWhile isTrimmed).reverse

/-- What the script reads of a `URL`. -/
structure JsUrl where
  protocol : List Char
  username : List Char
  password : List Char
  hostname : List Char
  port : Option Nat
  deriving DecidableEq, Repr

def JsUrl.ofUrl (p : Url) : JsUrl :=
  ⟨p.scheme ++ ":".toList, p.username, p.password.getD [], p.hostStr.getD [], p.port⟩

/-- `new URL`. -/
def newUrl (u : UrlCrate) (s : List Char) : Except (List Char) JsUrl :=
  match u.parse s with
  | .ok p => .ok (.ofUrl p)
  | .error _ => .error "TypeError: Invalid URL".toList

def policyErrorPrefix : List Char := "wasmsh: invalid network policy: ".toList

/-- `policyError`. -/
def policyError {α : Type} (message : List Char) : Except (List Char) α :=
  .error (policyErrorPrefix ++ message)

/-! ## 2. Ports and hosts -/

/-- `parsePort`. -/
def parsePort (raw : List Char) : Except (List Char) Nat :=
  if raw.isEmpty || !raw.all Char.isDigit then
    policyError "port must be a decimal value from 0 to 65535".toList
  else
    let port := raw.foldl (fun n c => n * 10 + (c.toNat - '0'.toNat)) 0
    if 65535 < port then policyError "port must be a decimal value from 0 to 65535".toList
    else .ok port

/-- What `splitRulePort` returns. -/
structure RuleParts where
  host : List Char
  port : Option Nat
  bracketed : Bool
  deriving DecidableEq, Repr

/-- `splitRulePort`. -/
def splitRulePort (raw : List Char) : Except (List Char) RuleParts :=
  match raw with
  | '[' :: rest =>
    if ']' ∈ rest then
      let host := rest.takeWhile (· ≠ ']')
      match rest.drop (host.length + 1) with
      | [] => .ok ⟨host, none, true⟩
      | ':' :: port => (parsePort port).map fun port => ⟨host, some port, true⟩
      | _ => policyError "characters after bracketed IPv6 host are not allowed".toList
    else policyError "bracketed IPv6 rule is missing ']'".toList
  | _ =>
    if '[' ∈ raw ∨ ']' ∈ raw then policyError "IPv6 rules must use brackets".toList
    else if 1 < raw.count ':' then policyError "IPv6 rules must use brackets".toList
    else match rsplitOnce ':' raw with
      | some (host, port) =>
        if host.isEmpty then policyError "rule host is empty".toList
        else (parsePort port).map fun port => ⟨host, some port, false⟩
      | none => .ok ⟨raw, none, false⟩

/-- The labels of a host, as the script checks them. -/
def validLabel (label : List Char) : Bool :=
  !label.isEmpty && label.length ≤ 63 && label.head? ≠ some '-' && label.getLast? ≠ some '-' &&
    label.all fun c => ('a' ≤ c && c ≤ 'z') || c.isDigit || c == '-'

variable (u : UrlCrate)

/-- `normalizeHost`. -/
def normalizeHost (raw : List Char) : Except (List Char) (List Char) :=
  if raw.isEmpty || trim raw ≠ raw then
    policyError "host must be a non-empty, unpadded string".toList
  else if raw.any fun c => c.toNat < 0x20 || c.toNat == 0x7f then
    policyError "host must not contain control characters".toList
  else
    let host := if raw.getLast? = some '.' then raw.dropLast else raw
    if host.head? = some '[' ∧ host.getLast? ≠ some ']' then
      policyError "invalid bracketed host".toList
    else
      let host := if host.head? = some '[' then (host.drop 1).dropLast else host
      if host.isEmpty || host.getLast? = some '.' ||
          host.any (fun c => "/@?#%\\".toList.contains c) then
        policyError "invalid host syntax".toList
      else if host.contains ':' then
        match newUrl u ("http://[".toList ++ host ++ "]/".toList) with
        | .error _ => policyError "invalid IPv6 host".toList
        | .ok parsed =>
          let normalized := ((parsed.hostname.drop 1).dropLast).map Char.toLower
          if normalized.contains ':' then .ok normalized
          else policyError "invalid IPv6 host".toList
      else
        match newUrl u ("http://".toList ++ host ++ "/".toList) with
        | .error _ => policyError "invalid host".toList
        | .ok parsed =>
          let lower := parsed.hostname.map Char.toLower
          let normalized := if lower.getLast? = some '.' then lower.dropLast else lower
          if normalized.isEmpty || normalized.contains ':' then policyError "invalid host".toList
          else if 253 < (Utf8.encode normalized).length then
            policyError "domain exceeds 253 bytes".toList
          else if (normalized.splitOn '.').all validLabel then .ok normalized
          else policyError "domain contains an invalid label".toList

/-! ## 3. Rules and targets -/

/-- `parseRule`; its objects are the rules of `net_types.rs`. -/
def parseRule (raw : List Char) : Except (List Char) NetworkRule :=
  if raw.isEmpty || trim raw ≠ raw then
    policyError "rule must not be empty, padded, or non-string".toList
  else match splitRulePort raw with
    | .error e => .error e
    | .ok parts =>
      if parts.bracketed ∧ ¬ parts.host.contains ':' then
        policyError "bracketed rules must contain an IPv6 address".toList
      else if parts.host = ['*'] then .ok (.any parts.port)
      else if ['*', '.'].isPrefixOf parts.host then
        let suffix := parts.host.drop 2
        if suffix.isEmpty || suffix.contains '*' || suffix.contains '?' then
          policyError "wildcard must be exactly '*.example.com' style".toList
        else match normalizeHost u suffix with
          | .error e => .error e
          | .ok host =>
            if host.contains ':' then
              policyError "wildcard rules cannot target an IP address".toList
            else .ok (.host host true parts.port)
      else if parts.host.contains '*' || parts.host.contains '?' then
        policyError "only '*' and '*.example.com' wildcards are supported".toList
      else match normalizeHost u parts.host with
        | .error e => .error e
        | .ok host => .ok (.host host false parts.port)

structure Target where
  host : List Char
  port : Option Nat
  deriving DecidableEq, Repr

/-- `DEFAULT_PORTS`. -/
def defaultPort (protocol : List Char) : Option Nat :=
  if protocol = "http:".toList then some 80
  else if protocol = "https:".toList then some 443
  else none

/-- `normalizeNetworkTarget`. -/
def normalizeNetworkTarget (url : List Char) : Except (List Char) Target :=
  match newUrl u url with
  | .error _ => .error "invalid URL".toList
  | .ok parsed =>
    if parsed.protocol ≠ "http:".toList ∧ parsed.protocol ≠ "https:".toList then
      .error ("unsupported scheme '".toList ++ parsed.protocol ++ "'".toList)
    else if !parsed.username.isEmpty || !parsed.password.isEmpty then
      .error "URL userinfo is not allowed".toList
    else match normalizeHost u parsed.hostname with
      | .error e => .error e
      | .ok host =>
        .ok ⟨host, match parsed.port with
          | some port => some port
          | none => defaultPort parsed.protocol⟩

/-- `portMatches`. -/
def portMatches (rulePort targetPort : Option Nat) : Bool :=
  rulePort.isNone || rulePort == targetPort

/-- `ruleMatches`. -/
def ruleMatches (target : Target) : NetworkRule → Bool
  | .any port => portMatches port target.port
  | .host host wildcard port =>
    portMatches port target.port &&
      if wildcard then
        ('.' :: host).isSuffixOf target.host && host.length + 1 < target.host.length
      else target.host == host

/-! ## 4. The policy -/

/-- `normalizeRuleList`: the name of the list takes the place of the prefix of the error. -/
def normalizeRuleList (name : List Char) : List (List Char) → Except (List Char) (List NetworkRule)
  | [] => .ok []
  | value :: values =>
    match parseRule u value with
    | .error e => policyError (name ++ ": ".toList ++ e.drop policyErrorPrefix.length)
    | .ok rule => (normalizeRuleList name values).map (rule :: ·)

/-- `normalizeNetworkPolicy` on a structured configuration. -/
def normalizeNetworkPolicy (config : NetworkPolicyConfig) : Except (List Char) NetworkPolicy :=
  match normalizeRuleList u "allow".toList config.allow with
  | .error e => .error e
  | .ok allow =>
    match normalizeRuleList u "deny".toList config.deny with
    | .error e => .error e
    | .ok deny => .ok ⟨config.enabled, config.defaultAction, allow, deny⟩

/-- `isNetworkAllowed` with a normalized policy. -/
def isAllowed (url : List Char) (policy : NetworkPolicy) : Bool :=
  if !policy.enabled then false
  else match normalizeNetworkTarget u url with
    | .error _ => false
    | .ok target =>
      if policy.deny.any (ruleMatches target) then false
      else if policy.allow.any (ruleMatches target) then true
      else match policy.defaultAction with
        | .allow => true
        | .deny => false

/-- `isNetworkAllowed`: the policy is normalized on each call. -/
def isNetworkAllowed (url : List Char) (config : NetworkPolicyConfig) : Except (List Char) Bool :=
  (normalizeNetworkPolicy u config).map (isAllowed u url)

end Wasmsh.Network.Mirror

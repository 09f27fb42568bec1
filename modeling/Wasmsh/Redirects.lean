import Wasmsh.Network

/-!
# Redirects and retries

`fetch_with_retries` and `fetch_with_redirects` of `wasmsh-utils/src/net_ops.rs`.  The backend
is arbitrary: each of its answers may depend on everything that it was asked before.  A run
keeps a trace of what the backend was asked, one trace for each attempt.

The redirect loop counts its hops up to the bound; here it is given how many are left, and so
is the loop over the attempts.
-/

namespace Wasmsh.Network

/-! ## 1. Backends and traces -/

/-- `NetworkBackend`, with the state that its answers depend on. -/
structure NetworkBackend (B : Type) where
  fetch : HttpRequest → B → Except NetworkError HttpResponse × B
  checkUrl : List Char → B → Except NetworkError Unit × B

/-- What a backend was asked, and its answer. -/
inductive NetEvent where
  | checked (url : List Char) (result : Except NetworkError Unit)
  | fetched (request : HttpRequest) (result : Except NetworkError HttpResponse)

structure Outcome (B : Type) where
  result : Except NetworkError HttpResponse
  trace : List NetEvent
  backend : B

/-- `PolicyNetworkBackend`: the policy stands before the backend of the host. -/
def policyBackend {B : Type} (u : UrlCrate) (p : NetworkPolicy) (inner : NetworkBackend B) :
    NetworkBackend B where
  fetch request b :=
    match p.check u request.url with
    | .error e => (.error e, b)
    | .ok _ => inner.fetch request b
  checkUrl url b := (p.check u url, b)

/-! ## 2. One hop -/

/-- `eq_ignore_ascii_case`. -/
def eqIgnoreAsciiCase (a b : List Char) : Bool := a.map Char.toLower == b.map Char.toLower

/-- The headers that `strip_cross_origin_sensitive_headers` takes away. -/
def isSensitiveHeader (name : List Char) : Bool :=
  eqIgnoreAsciiCase name "authorization".toList || eqIgnoreAsciiCase name "cookie".toList ||
    eqIgnoreAsciiCase name "proxy-authorization".toList || eqIgnoreAsciiCase name "host".toList

/-- `strip_cross_origin_sensitive_headers`. -/
def stripCrossOriginSensitiveHeaders (headers : List (List Char × List Char)) :
    List (List Char × List Char) :=
  headers.filter fun h => !isSensitiveHeader h.1

/-- `has_sigv4`. -/
def hasSigv4 (headers : List (List Char × List Char)) : Bool :=
  headers.any fun h => eqIgnoreAsciiCase h.1 "authorization".toList &&
    "AWS4-HMAC-SHA256 ".toList.isPrefixOf h.2

/-- `is_redirect_status`. -/
def isRedirectStatus (status : Nat) : Bool := [301, 302, 303, 307, 308].contains status

/-- `extract_location_header`. -/
def extractLocationHeader (response : HttpResponse) : Option (List Char) :=
  (response.headers.find? fun h => eqIgnoreAsciiCase h.1 "location".toList).map Prod.snd

/-- Whether the status demotes the method to `GET` and drops the body. -/
def demotes (status : Nat) (method : List Char) : Bool :=
  301 ≤ status && status ≤ 303 && method ≠ "GET".toList && method ≠ "HEAD".toList

variable (u : UrlCrate)

/-- `resolve_redirect_url`. -/
def resolveRedirectUrl (base location : List Char) : Except (List Char) (List Char) :=
  match u.parse base with
  | .error e => .error e
  | .ok base => (u.join base location).map Url.href

/-- What two URLs are compared by: scheme, host and port. -/
def Url.origin (p : Url) : List Char × Option (List Char) × Option Nat :=
  (p.scheme, p.hostStr, p.portOrKnownDefault)

/-- `is_cross_origin`. -/
def isCrossOrigin (source target : List Char) : Except NetworkError Bool :=
  match u.parse source with
  | .error e => .error (.invalidUrl ("invalid redirect source: ".toList ++ e))
  | .ok source =>
    match u.parse target with
    | .error e => .error (.invalidUrl ("invalid redirect target: ".toList ++ e))
    | .ok target => .ok (decide (source.origin ≠ target.origin))

/-- The request after a redirect to `next`, which was validated and checked. -/
def redirected (request : HttpRequest) (status : Nat) (next : List Char) :
    Except NetworkError HttpRequest :=
  match isCrossOrigin u request.url next with
  | .error e => .error e
  | .ok cross =>
    if cross && hasSigv4 request.headers then
      .error (.hostDenied "cross-origin redirect rejected for a signed request".toList)
    else
      .ok { request with
        headers := if cross then stripCrossOriginSensitiveHeaders request.headers
          else request.headers
        method := if demotes status request.method then "GET".toList else request.method
        body := if demotes status request.method then none else request.body
        url := next }

/-! ## 3. The loops -/

variable {B : Type} (N : NetworkBackend B)

/-- A request, after its URL was validated and checked. -/
def guardedFetch (request : HttpRequest) (b : B) : Outcome B :=
  match validateHttpUrl u request.url with
  | .error e => ⟨.error e, [], b⟩
  | .ok _ =>
    let check := N.checkUrl request.url b
    match check.1 with
    | .error e => ⟨.error e, [.checked request.url check.1], check.2⟩
    | .ok _ =>
      let answer := N.fetch request check.2
      ⟨answer.1, [.checked request.url check.1, .fetched request answer.1], answer.2⟩

/-- The loop of `fetch_with_redirects`, with `left` redirects of `max` still allowed. -/
def followRedirects (max : Nat) : Nat → HttpRequest → B → Outcome B
  | left, request, b =>
    let hop := guardedFetch u N request b
    match hop.result with
    | .error _ => hop
    | .ok response =>
      if !isRedirectStatus response.status then hop
      else match extractLocationHeader response with
        | none => hop
        | some location =>
          match left with
          | 0 =>
            { hop with result := .error (.tooManyRedirects
                ("exceeded ".toList ++ Nat.toDigits 10 max ++ " redirects".toList)) }
          | left + 1 =>
            match resolveRedirectUrl u request.url location with
            | .error e =>
              { hop with result := .error (.invalidUrl ("invalid redirect target: ".toList ++ e)) }
            | .ok next =>
              match validateHttpUrl u next with
              | .error e => { hop with result := .error e }
              | .ok _ =>
                let check := N.checkUrl next hop.backend
                let trace := hop.trace ++ [.checked next check.1]
                match check.1 with
                | .error e => ⟨.error e, trace, check.2⟩
                | .ok _ =>
                  match redirected u request response.status next with
                  | .error e => ⟨.error e, trace, check.2⟩
                  | .ok request =>
                    let rest := followRedirects max left request check.2
                    { rest with trace := trace ++ rest.trace }

/-- `max_redirs.unwrap_or(50)`. -/
def HttpRequest.redirectBound (request : HttpRequest) : Nat := request.maxRedirs.getD 50

/-- `fetch_with_redirects`. -/
def fetchWithRedirects (initial : HttpRequest) (b : B) : Outcome B :=
  if !initial.followRedirects then guardedFetch u N initial b
  else
    followRedirects u N initial.redirectBound initial.redirectBound
      { initial with followRedirects := false } b

/-- What the retry loop reads of `CurlOpts`. -/
structure RetryOpts where
  retry : Nat
  retryConnrefused : Bool
  retryAllErrors : Bool
  deriving DecidableEq, Repr

/-- `is_retryable_error`. -/
def isRetryableError (opts : RetryOpts) : NetworkError → Bool
  | .hostDenied _ => false
  | .invalidUrl _ => false
  | e =>
    opts.retryAllErrors ||
      match e with
      | .timeout _ => true
      | .connectionFailed message =>
        !(message.map Char.toLower).tails.any ("refused".toList.isPrefixOf ·) ||
          opts.retryConnrefused
      | _ => false

/-- `is_retryable_status`. -/
def isRetryableStatus (opts : RetryOpts) (status : Nat) : Bool :=
  (opts.retryAllErrors && 400 ≤ status) || [408, 429, 500, 502, 503, 504].contains status

/-- Whether the result of an attempt asks for another one. -/
def isRetryable (opts : RetryOpts) : Except NetworkError HttpResponse → Bool
  | .ok response => isRetryableStatus opts response.status
  | .error e => isRetryableError opts e

/-- The loop of `fetch_with_retries`, with `left` attempts allowed after the next one; the
    traces of the attempts in order. -/
def retryLoop (opts : RetryOpts) (request : HttpRequest) :
    Nat → B → Except NetworkError HttpResponse × List (List NetEvent) × B
  | left, b =>
    let attempt := fetchWithRedirects u N request b
    match left with
    | 0 => (attempt.result, [attempt.trace], attempt.backend)
    | left + 1 =>
      if isRetryable opts attempt.result then
        let rest := retryLoop opts request left attempt.backend
        (rest.1, attempt.trace :: rest.2.1, rest.2.2)
      else (attempt.result, [attempt.trace], attempt.backend)

/-- `fetch_with_retries`. -/
def fetchWithRetries (request : HttpRequest) (opts : RetryOpts) (b : B) :
    Except NetworkError HttpResponse × List (List NetEvent) × B :=
  retryLoop u N opts request opts.retry b

/-! ## 4. What a trace promises -/

/-- A fetch stands right after the successful check of its URL, which is an HTTP URL, and does
    not ask the backend to follow redirects. -/
inductive Guarded : List NetEvent → Prop where
  | nil : Guarded []
  | checked (url : List Char) (result : Except NetworkError Unit) {t : List NetEvent}
      (ht : Guarded t) : Guarded (.checked url result :: t)
  | fetched {request : HttpRequest} (result : Except NetworkError HttpResponse)
      {t : List NetEvent} (hvalid : validateHttpUrl u request.url = .ok ())
      (hchecked : ∃ b, (N.checkUrl request.url b).1 = .ok ())
      (hoff : request.followRedirects = false) (ht : Guarded t) :
      Guarded (.checked request.url (.ok ()) :: .fetched request result :: t)

/-- The requests that were fetched, with their answers. -/
def fetches (t : List NetEvent) : List (HttpRequest × Except NetworkError HttpResponse) :=
  t.filterMap fun
    | .fetched request result => some (request, result)
    | .checked _ _ => none

/-- The origin of the URL in the text, if it is one. -/
def originOf (url : List Char) : Option (List Char × Option (List Char) × Option Nat) :=
  match u.parse url with
  | .ok p => some p.origin
  | .error _ => none

/-- The request is at home, or carries nothing that may not leave it; and it stays at home if
    the first request was signed. -/
structure Discreet (initial request : HttpRequest) : Prop where
  stripped : originOf u request.url ≠ originOf u initial.url →
    ∀ h ∈ request.headers, isSensitiveHeader h.1 = false
  signed : hasSigv4 initial.headers = true →
    originOf u request.url = originOf u initial.url ∧ hasSigv4 request.headers = true

/-- The next request after an answer: the answer is a redirect, and its status says what
    becomes of the method and the body. -/
def Follows (a b : HttpRequest × Except NetworkError HttpResponse) : Prop :=
  ∃ response, a.2 = .ok response ∧ isRedirectStatus response.status = true ∧
    b.1.method = (if demotes response.status a.1.method then "GET".toList else a.1.method) ∧
    b.1.body = (if demotes response.status a.1.method then none else a.1.body)

/-- A run of the redirect loop that starts with `request` and may follow `left` redirects. -/
structure HopsOk (initial request : HttpRequest) (left : Nat) (t : List NetEvent) : Prop where
  guarded : Guarded u N t
  discreet : ∀ f ∈ fetches t, Discreet u initial f.1
  first : ∀ f ∈ (fetches t).head?, f.1 = request
  follows : (fetches t).IsChain Follows
  bounded : (fetches t).length ≤ left + 1

/-- One attempt: the first request is the one that was asked for, and at most as many redirects
    are followed as allowed. -/
def AttemptOk (initial : HttpRequest) (t : List NetEvent) : Prop :=
  HopsOk u N initial { initial with followRedirects := false } initial.redirectBound t

/-! ## 5. Each hop keeps the promise -/

variable {u : UrlCrate} {B : Type} {N : NetworkBackend B} {initial request : HttpRequest}

/-- The backend is asked to fetch only what was validated and checked. -/
theorem guardedFetch_cases (request : HttpRequest) (b : B) :
    ((∃ e, (guardedFetch u N request b).result = .error e) ∧
      ((guardedFetch u N request b).trace = [] ∨
        ∃ result, (guardedFetch u N request b).trace = [.checked request.url result])) ∨
    (validateHttpUrl u request.url = .ok () ∧ (∃ b, (N.checkUrl request.url b).1 = .ok ()) ∧
      (guardedFetch u N request b).trace = [.checked request.url (.ok ()),
        .fetched request (guardedFetch u N request b).result]) := by
  unfold guardedFetch
  cases hvalid : validateHttpUrl u request.url with
  | error e => exact .inl ⟨⟨e, rfl⟩, .inl rfl⟩
  | ok valid =>
    cases hcheck : (N.checkUrl request.url b).1 with
    | error e =>
      left
      simp only [hcheck]
      exact ⟨⟨e, rfl⟩, .inr ⟨_, rfl⟩⟩
    | ok checked =>
      right
      simp only [hcheck]
      exact ⟨trivial, ⟨b, hcheck⟩, trivial⟩

/-- The trace of one hop by itself. -/
theorem HopsOk.hop (hoff : request.followRedirects = false) (hdiscreet : Discreet u initial request)
    (left : Nat) (b : B) :
    HopsOk u N initial request left (guardedFetch u N request b).trace := by
  rcases guardedFetch_cases (u := u) (N := N) request b with
    ⟨-, hnone | ⟨result, hchecked⟩⟩ | ⟨hvalid, hcheck, hfetched⟩
  · rw [hnone]
    exact ⟨.nil, by simp [fetches], by simp [fetches], by simp [fetches], by simp [fetches]⟩
  · rw [hchecked]
    exact ⟨.checked _ _ .nil, by simp [fetches], by simp [fetches], by simp [fetches],
      by simp [fetches]⟩
  · rw [hfetched]
    refine ⟨.fetched _ hvalid hcheck hoff .nil, ?_, ?_, ?_, ?_⟩
    · intro f hf
      rw [List.mem_singleton.mp (show f ∈ [_] from hf)]
      exact hdiscreet
    · intro f hf
      cases hf
      rfl
    · simp [fetches]
    · simp [fetches]

theorem Guarded.append {s t : List NetEvent} (hs : Guarded u N s) (ht : Guarded u N t) :
    Guarded u N (s ++ t) := by
  induction hs with
  | nil => exact ht
  | checked url result _ ih => exact .checked url result ih
  | fetched result hvalid hcheck hoff _ ih => exact .fetched result hvalid hcheck hoff ih

/-- A check that no fetch follows. -/
theorem HopsOk.checked {left : Nat} {t : List NetEvent} (h : HopsOk u N initial request left t)
    (url : List Char) (result : Except NetworkError Unit) :
    HopsOk u N initial request left (t ++ [.checked url result]) := by
  have hsame : fetches (t ++ [.checked url result]) = fetches t := by simp [fetches]
  refine ⟨h.guarded.append (.checked url result .nil), ?_, ?_, ?_, ?_⟩
  · rw [hsame]
    exact h.discreet
  · rw [hsame]
    exact h.first
  · rw [hsame]
    exact h.follows
  · rw [hsame]
    exact h.bounded

/-- A hop, the check of the next URL, and the hops after it. -/
theorem HopsOk.cons {request' : HttpRequest} {result : Except NetworkError HttpResponse}
    {url : List Char} {checked : Except NetworkError Unit} {left : Nat} {t : List NetEvent}
    (hvalid : validateHttpUrl u request.url = .ok ())
    (hcheck : ∃ b, (N.checkUrl request.url b).1 = .ok ())
    (hoff : request.followRedirects = false) (hdiscreet : Discreet u initial request)
    (hfollows : ∀ result', Follows (request, result) (request', result'))
    (h : HopsOk u N initial request' left t) :
    HopsOk u N initial request (left + 1)
      ([.checked request.url (.ok ()), .fetched request result] ++ [.checked url checked] ++ t) := by
  have hfetches : fetches ([.checked request.url (.ok ()), .fetched request result] ++
      [.checked url checked] ++ t) = (request, result) :: fetches t := by simp [fetches]
  refine ⟨.fetched result hvalid hcheck hoff (.checked url checked h.guarded), ?_, ?_, ?_, ?_⟩
  · rw [hfetches]
    intro f hf
    rcases List.mem_cons.mp hf with rfl | hf
    · exact hdiscreet
    · exact h.discreet f hf
  · rw [hfetches]
    intro f hf
    cases hf
    rfl
  · rw [hfetches]
    cases hlater : fetches t with
    | nil => exact List.isChain_singleton _
    | cons next later =>
      have hnext : next.1 = request' := h.first next (by rw [hlater]; rfl)
      obtain ⟨request', result'⟩ := next
      cases hnext
      exact List.isChain_cons_cons.mpr ⟨hfollows result', hlater ▸ h.follows⟩
  · rw [hfetches, List.length_cons]
    exact Nat.succ_le_succ h.bounded

theorem isCrossOrigin_ok {source target : List Char} {cross : Bool}
    (h : isCrossOrigin u source target = .ok cross) :
    cross = decide (originOf u source ≠ originOf u target) := by
  unfold isCrossOrigin at h
  unfold originOf
  cases hsource : u.parse source with
  | error e => simp [hsource] at h
  | ok p =>
    cases htarget : u.parse target with
    | error e => simp [hsource, htarget] at h
    | ok q =>
      simp only [hsource, htarget, Except.ok.injEq] at h
      simp [← h]

/-- A redirect keeps the request discreet: where it leaves an origin it is not signed, and what
    it carries is stripped. -/
theorem redirected_spec {status : Nat} {next : List Char} {request' : HttpRequest}
    (h : redirected u request status next = .ok request')
    (hdiscreet : Discreet u initial request) :
    Discreet u initial request' ∧ request'.followRedirects = request.followRedirects ∧
      request'.method = (if demotes status request.method then "GET".toList
        else request.method) ∧
      request'.body = (if demotes status request.method then none else request.body) := by
  unfold redirected at h
  cases hcross : isCrossOrigin u request.url next with
  | error e => simp [hcross] at h
  | ok cross =>
    have horigin := isCrossOrigin_ok hcross
    simp only [hcross] at h
    split at h
    case isTrue => cases h
    case isFalse hsigned =>
      cases h
      refine ⟨⟨?_, ?_⟩, rfl, rfl, rfl⟩
      · intro haway e he
        cases cross with
        | true =>
          have hkept := (List.mem_filter.mp he).2
          simpa using hkept
        | false =>
          have hsame : originOf u request.url = originOf u next := by simpa using horigin
          exact hdiscreet.stripped (hsame ▸ haway) e he
      · intro hinitial
        obtain ⟨hhome, hheaders⟩ := hdiscreet.signed hinitial
        cases cross with
        | true => exact absurd hheaders (by simpa using hsigned)
        | false =>
          have hsame : originOf u request.url = originOf u next := by simpa using horigin
          exact ⟨hsame.symm.trans hhome, hheaders⟩

/-! ## 6. Whole runs -/

theorem hopsOk_followRedirects (max left : Nat) (b : B)
    (hoff : request.followRedirects = false) (hdiscreet : Discreet u initial request) :
    HopsOk u N initial request left (followRedirects u N max left request b).trace := by
  induction left generalizing request b with
  | zero =>
    have hhop := HopsOk.hop (N := N) hoff hdiscreet 0 b
    unfold followRedirects
    dsimp only
    cases (guardedFetch u N request b).result with
    | error e => exact hhop
    | ok response =>
      dsimp only
      cases isRedirectStatus response.status with
      | false => exact hhop
      | true => cases extractLocationHeader response <;> exact hhop
  | succ left ih =>
    have hhop := HopsOk.hop (N := N) hoff hdiscreet (left + 1) b
    unfold followRedirects
    dsimp only
    rcases guardedFetch_cases (u := u) (N := N) request b with
      ⟨⟨e, herror⟩, -⟩ | ⟨hvalid, hcheck, htrace⟩
    · rw [herror]
      exact hhop
    cases hresult : (guardedFetch u N request b).result with
    | error e => exact hhop
    | ok response =>
      dsimp only
      by_cases hredirect : isRedirectStatus response.status = true
      · rw [hredirect]
        cases extractLocationHeader response with
        | none => exact hhop
        | some location =>
          dsimp only
          cases resolveRedirectUrl u request.url location with
          | error e => exact hhop
          | ok next =>
            dsimp only
            cases validateHttpUrl u next with
            | error e => exact hhop
            | ok valid =>
              dsimp only
              cases hanswer : (N.checkUrl next (guardedFetch u N request b).backend).1 with
              | error e => exact hhop.checked next _
              | ok checked =>
                dsimp only
                cases hnext : redirected u request response.status next with
                | error e => exact hhop.checked next _
                | ok request' =>
                  obtain ⟨hdiscreet', hoff', hmethod, hbody⟩ := redirected_spec hnext hdiscreet
                  rw [hresult] at htrace
                  have hfollows : ∀ result', Follows (request, .ok response) (request', result') :=
                    fun result' => ⟨response, rfl, hredirect, hmethod, hbody⟩
                  rw [htrace]
                  exact .cons hvalid hcheck hoff hdiscreet hfollows
                    (ih _ (hoff'.trans hoff) hdiscreet')
      · rw [Bool.not_eq_true] at hredirect
        rw [hredirect]
        exact hhop

theorem discreet_refl (off : Bool) :
    Discreet u initial { initial with followRedirects := off } where
  stripped := fun h => absurd rfl h
  signed := fun h => ⟨rfl, h⟩

theorem attemptOk_fetchWithRedirects (initial : HttpRequest) (b : B) :
    AttemptOk u N initial (fetchWithRedirects u N initial b).trace := by
  unfold fetchWithRedirects
  cases hfollow : initial.followRedirects with
  | true => exact hopsOk_followRedirects _ _ _ rfl (discreet_refl false)
  | false =>
    have hsame : { initial with followRedirects := false } = initial := by
      rw [← hfollow]
    have hhop := HopsOk.hop (N := N) hfollow (discreet_refl (u := u) initial.followRedirects)
      initial.redirectBound b
    unfold AttemptOk
    rw [hsame]
    exact hhop

/-- For every backend, request and retry setting: there are at most `retry + 1` attempts, and
    each of them keeps the promise. -/
theorem fetch_stays_in_policy (u : UrlCrate) {B : Type} (N : NetworkBackend B)
    (initial : HttpRequest) (opts : RetryOpts) (b : B) :
    (fetchWithRetries u N initial opts b).2.1.length ≤ opts.retry + 1 ∧
    ∀ t ∈ (fetchWithRetries u N initial opts b).2.1, AttemptOk u N initial t := by
  unfold fetchWithRetries
  generalize opts.retry = left
  induction left generalizing b with
  | zero =>
    refine ⟨Nat.le_refl 1, fun t ht => ?_⟩
    rw [List.mem_singleton.mp (show t ∈ [_] from ht)]
    exact attemptOk_fetchWithRedirects initial b
  | succ left ih =>
    unfold retryLoop
    dsimp only
    split
    · obtain ⟨hlength, hall⟩ := ih (fetchWithRedirects u N initial b).backend
      refine ⟨Nat.succ_le_succ hlength, fun t ht => ?_⟩
      rcases List.mem_cons.mp ht with rfl | ht
      · exact attemptOk_fetchWithRedirects initial b
      · exact hall t ht
    · refine ⟨Nat.succ_le_succ (Nat.zero_le _), fun t ht => ?_⟩
      rw [List.mem_singleton.mp ht]
      exact attemptOk_fetchWithRedirects initial b

/-- With a policy before the backend, what is fetched passes the policy. -/
theorem Guarded.policy {p : NetworkPolicy} {inner : NetworkBackend B} {t : List NetEvent}
    (h : Guarded u (policyBackend u p inner) t) :
    ∀ f ∈ fetches t, p.check u f.1.url = .ok () := by
  induction h with
  | nil => exact fun f hf => absurd hf (by simp [fetches])
  | checked url result _ ih => exact ih
  | fetched result hvalid hchecked hoff _ ih =>
    intro f hf
    rcases List.mem_cons.mp (show f ∈ _ :: _ from hf) with rfl | hf
    · obtain ⟨b, hcheck⟩ := hchecked
      exact hcheck
    · exact ih f hf

/-- Every trace of the loop is that of an attempt. -/
theorem mem_retryLoop {left : Nat} {opts : RetryOpts} {b : B} {t : List NetEvent}
    (ht : t ∈ (retryLoop u N opts initial left b).2.1) :
    ∃ b', t = (fetchWithRedirects u N initial b').trace := by
  induction left generalizing b with
  | zero => exact ⟨b, List.mem_singleton.mp ht⟩
  | succ left ih =>
    unfold retryLoop at ht
    dsimp only at ht
    split at ht
    · rcases List.mem_cons.mp ht with rfl | ht
      · exact ⟨b, rfl⟩
      · exact ih ht
    · exact ⟨b, List.mem_singleton.mp ht⟩

/-- **Behind a policy nothing else is fetched**, by any hop of any attempt. -/
theorem retries_pass_policy (u : UrlCrate) {B : Type} (p : NetworkPolicy)
    (inner : NetworkBackend B) (initial : HttpRequest) (opts : RetryOpts) (b : B) :
    ((fetchWithRetries u (policyBackend u p inner) initial opts b).2.1.flatMap fetches).all
      (fun f => (p.check u f.1.url).isOk) = true := by
  rw [List.all_eq_true]
  intro f hf
  obtain ⟨t, ht, hf⟩ := List.mem_flatMap.mp hf
  obtain ⟨b', rfl⟩ := mem_retryLoop ht
  rw [(attemptOk_fetchWithRedirects initial b').guarded.policy f hf]
  rfl

end Wasmsh.Network

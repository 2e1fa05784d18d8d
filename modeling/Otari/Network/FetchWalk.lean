import Otari.Network.DomainPolicy
import Otari.Network.PinnedTransport

/-!
# Network — FetchWalk — a fetch across redirects

`_fetch` of `web_fetch_service.py`, over `RedirectTracker` and the pinned transport.  What a hop meets
stands in its `Hop`: what the resolver answers then, the pools it finds, what comes of each address it
dials, and the response.
-/

namespace Otari.Network

/-! ### Redirects -/

/-- `is_redirect_status`. -/
def isRedirectStatus (statusCode : ℕ) : Bool := [301, 302, 303, 307, 308].contains statusCode

/-- `redirect_loop_key`. -/
def CanonicalWebURL.redirectLoopKey (url : CanonicalWebURL) : String × String × ℕ × String :=
  (url.scheme, url.host.value, url.port, url.url.rawPath)

/-- What `httpx.URL` does with a location: `join`, which is `none` where it raises, and the text. -/
structure Locations where
  join : HttpxURL → String → Option HttpxURL
  text : HttpxURL → String

/-- `RedirectTracker`. -/
structure RedirectTracker where
  current : CanonicalWebURL
  maxRedirects : ℕ
  redirectsFollowed : ℕ
  visited : List (String × String × ℕ × String)

/-- `RedirectTracker.__init__`. -/
def RedirectTracker.start (current : CanonicalWebURL) (maxRedirects : ℕ := 5) : RedirectTracker :=
  ⟨current, maxRedirects, 0, [current.redirectLoopKey]⟩

section
variable (platform : Platform) (locations : Locations)

/-- `resolve_redirect_url`. -/
def resolveRedirectUrl (current : CanonicalWebURL) (location : String) :
    Except String CanonicalWebURL :=
  if location = "" ∨ containsControlCharacter location then
    .error "redirect Location is missing or malformed"
  else
    match locations.join current.url location with
    | none => .error "redirect Location is malformed"
    | some joined => canonicalizeWebUrl platform (locations.text joined)

/-- `RedirectTracker.advance`; the error is a `RedirectValidationError`. -/
def RedirectTracker.advance (tracker : RedirectTracker) :
    Option String → Except String (CanonicalWebURL × RedirectTracker)
  | none => .error "redirect response is missing Location"
  | some location =>
    if tracker.maxRedirects ≤ tracker.redirectsFollowed then
      .error "redirect hop limit exceeded"
    else
      match resolveRedirectUrl platform locations tracker.current location with
      | .error _ => .error "redirect target is malformed"
      | .ok nextUrl =>
        if tracker.current.scheme = "https" ∧ nextUrl.scheme = "http" then
          .error "HTTPS-to-HTTP redirect is not allowed"
        else if nextUrl.redirectLoopKey ∈ tracker.visited then
          .error "redirect loop detected"
        else
          .ok (nextUrl, { tracker with
            current := nextUrl
            redirectsFollowed := tracker.redirectsFollowed + 1
            visited := tracker.visited ++ [nextUrl.redirectLoopKey] })

end

/-! ### One hop -/

/-- What a fetch raises; `raised` is an exception that is passed on. -/
inductive FetchError where
  | target (error : RetrievalTargetError)
  | redirect (message : String)
  | deadline
  | transport (error : TransportError)
  | httpStatus (statusCode : ℕ)
  | raised

/-- A response; `body` is what reading and extracting it gives. -/
structure Response (Body : Type*) where
  statusCode : ℕ
  location : Option String
  body : Except FetchError Body
  closeRaises : Bool

/-- What a request in the transport is resumed by. -/
inductive DialEvent where
  | evictionEnds (raises : Bool)
  | answered (answer : Answer) (factoryRaises : Bool)

/-- What a hop meets.  Other requests change the pools between any two of its events; where the events
end before the request does, the deadline passes. -/
structure Hop (Body : Type*) where
  resolve : String → ℕ → List IPAddress
  timesOut : Bool
  expired : Bool
  pools : PinnedTransport
  factoryRaises : Bool
  events : List (DialEvent × PinnedTransport)
  response : Except FetchError (Response Body)

/-- A delegated request and its answer, where one came in time. -/
structure Dial where
  request : DelegatedRequest
  answer : Option Answer

structure Visit where
  target : ValidatedTarget
  dials : List Dial

/-- `WebFetchResult`. -/
structure WebFetchResult (Body : Type*) where
  body : Body
  requestedUrl : CanonicalWebURL
  finalUrl : CanonicalWebURL
  redirectCount : ℕ

def fetchRequest (target : ValidatedTarget) : Request where
  method := "GET"
  url := target.canonicalUrl.url
  host := some target.canonicalUrl.authority
  target := some target
  asyncStream := true

/-- A request in flight when the deadline passes, or as it ended. -/
def PinnedTask.outcome (task : PinnedTask) : Except FetchError Unit :=
  match task.phase with
  | .returned _ => .ok ()
  | .raised error => .error (.transport error)
  | _ => .error .deadline

/-- The request on the wire, with its answer. -/
def PinnedTask.dial (task : PinnedTask) (answer : Option Answer) : List Dial :=
  match task.phase with
  | .dialing _ delegated _ => [⟨delegated, answer⟩]
  | _ => []

section
variable (platform : Platform) (settings : TransportSettings) (locations : Locations)
  (policy : Option DomainPolicy) (allowPrivate : Bool)

/-- The request goes on as the event lets it; `none` is an event it does not wait for. -/
def PinnedTask.resume (task : PinnedTask) (pools : PinnedTransport) : DialEvent → Option Phase
  | .evictionEnds raises => (evictionEnds settings task raises pools).map Prod.fst
  | .answered answer factoryRaises =>
    (answered settings task answer factoryRaises 0 pools).map Prod.fst

def DialEvent.answer : DialEvent → Option Answer
  | .evictionEnds _ => none
  | .answered answer _ => some answer

def PinnedTask.await (task : PinnedTask) :
    List (DialEvent × PinnedTransport) → List Dial × Except FetchError Unit
  | [] => (task.dial none, task.outcome)
  | (event, pools) :: events =>
    match task.resume settings pools event with
    | none => task.await events
    | some phase =>
      let (dials, outcome) := ({ task with phase := phase } : PinnedTask).await events
      (task.dial event.answer ++ dials, outcome)

variable {Body : Type*}

/-- `validate_retrieval_target`, as a hop calls it. -/
def validate (hop : Hop Body) (value : String ⊕ CanonicalWebURL) :
    Except FetchError ValidatedTarget :=
  match validateRetrievalTarget platform value (policy.map DomainPolicy.permits) (some hop.resolve)
    hop.timesOut allowPrivate with
  | .error e => .error (.target e)
  | .ok (canonicalUrl, addresses) => .ok ⟨canonicalUrl, addresses⟩

/-- `client.send`, of the hop's request. -/
def send (hop : Hop Body) (target : ValidatedTarget) :
    List Dial × Except FetchError (Response Body) :=
  if hop.expired then
    ([], .error .deadline)
  else
    match handleAsyncRequest settings (fetchRequest target) hop.factoryRaises hop.pools with
    | .error e => ([], .error (.transport e))
    | .ok (task, _) =>
      let (dials, outcome) := task.await settings hop.events
      (dials, outcome.bind fun _ => hop.response)

/-- A redirect response: the next target is validated as the next hop finds it. -/
def follow (next : Hop Body) (response : Response Body) (tracker : RedirectTracker) :
    Except FetchError (ValidatedTarget × RedirectTracker) :=
  if response.closeRaises then
    .error .raised
  else
    match tracker.advance platform locations response.location with
    | .error message => .error (.redirect message)
    | .ok (nextUrl, tracker') =>
      (validate platform policy allowPrivate next (.inr nextUrl)).map fun target => (target, tracker')

def finish (response : Response Body) (requestedUrl finalUrl : CanonicalWebURL)
    (redirectCount : ℕ) : Except FetchError (WebFetchResult Body) :=
  if 200 ≤ response.statusCode ∧ response.statusCode < 300 then
    response.body.map fun body => ⟨body, requestedUrl, finalUrl, redirectCount⟩
  else if response.closeRaises then
    .error .raised
  else
    .error (.httpStatus response.statusCode)

/-! ### The walk -/

/-- The loop of `_fetch` from its hop `i`, with the hops it requested; `none` is out of fuel. -/
def fetchLoop (hops : ℕ → Hop Body) (requestedUrl : CanonicalWebURL) :
    ℕ → ℕ → ValidatedTarget → RedirectTracker →
      List Visit × Option (Except FetchError (WebFetchResult Body))
  | 0, _, _, _ => ([], none)
  | fuel + 1, i, target, tracker =>
    match send settings (hops i) target with
    | (dials, .error e) => ([⟨target, dials⟩], some (.error e))
    | (dials, .ok response) =>
      if isRedirectStatus response.statusCode then
        match follow platform locations policy allowPrivate (hops (i + 1)) response tracker with
        | .error e => ([⟨target, dials⟩], some (.error e))
        | .ok (target', tracker') =>
          let (visits, outcome) := fetchLoop hops requestedUrl fuel (i + 1) target' tracker'
          (⟨target, dials⟩ :: visits, outcome)
      else
        ([⟨target, dials⟩], some (finish response requestedUrl target.canonicalUrl
          tracker.redirectsFollowed))

/-- `_fetch`. -/
def fetch (hops : ℕ → Hop Body) (maxRedirects : ℕ) (fuel : ℕ) (url : String) :
    List Visit × Option (Except FetchError (WebFetchResult Body)) :=
  match validate platform policy allowPrivate (hops 0) (.inl url) with
  | .error e => ([], some (.error e))
  | .ok target =>
    fetchLoop platform settings locations policy allowPrivate hops target.canonicalUrl fuel 0 target
      (.start target.canonicalUrl maxRedirects)

end

end Otari.Network

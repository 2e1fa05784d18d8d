import Otari.Network.FetchWalk
import Otari.Network.OutboundSafety

/-!
# Network — WalkSafe — a pinned walk stays admitted

What `RedirectTracker.advance` and a validation let through is said once (`advance_ok`, `validate_ok`),
and a fetch is the walk these allow (`fetchLoop_walk`).  Hence every hop is validated as it is
requested, dials only what was admitted for it (`await_dialed`), and is requested once;
`fetch_walk_safe` says so of every run, and that it ends.
-/

namespace Otari.Network
open List

variable {platform : Platform} {settings : TransportSettings} {locations : Locations}
  {policy : Option DomainPolicy} {allowPrivate : Bool} {Body : Type*}

/-! ### What is validated -/

/-- What is admitted was resolved, once each, and passes the filter unless private addresses are
allowed. -/
theorem admitAddresses_spec {admitted addresses result : List IPAddress}
    (h : admitAddresses allowPrivate admitted addresses = .ok result) :
    (admitted.Nodup → result.Nodup) ∧ ∀ address ∈ result, address ∈ admitted ∨ address ∈ addresses := by
  induction addresses generalizing admitted with
  | nil =>
    cases h
    exact ⟨id, fun _ => Or.inl⟩
  | cons address addresses ih =>
    have hnext : admitAddresses allowPrivate
        (if address ∈ admitted then admitted else admitted ++ [address]) addresses = .ok result := by
      rw [admitAddresses.eq_def] at h
      cases hreason : blockedAddressReason address with
      | none => simpa [hreason] using h
      | some reason =>
        cases allowPrivate with
        | false => simp [hreason] at h
        | true => simpa [hreason] using h
    obtain ⟨hnodup, hmem⟩ := ih hnext
    by_cases hold : address ∈ admitted
    · rw [if_pos hold] at hnodup hmem
      exact ⟨hnodup, fun a ha => (hmem a ha).imp_right (mem_cons_of_mem _)⟩
    · rw [if_neg hold] at hnodup hmem
      refine ⟨fun hn => hnodup (nodup_append.mpr ⟨hn, nodup_singleton _, ?_⟩),
        fun a ha => ?_⟩
      · intro a ha b hb hab
        rw [mem_singleton.mp hb] at hab
        exact hold (hab ▸ ha)
      · rcases hmem a ha with h | h
        · rcases mem_append.mp h with h | h
          · exact .inl h
          · exact .inr (mem_cons.mpr (.inl (mem_singleton.mp h)))
        · exact .inr (mem_cons_of_mem _ h)

/-- What a hop's own validation promises of its target. -/
structure Validated (policy : Option DomainPolicy) (allowPrivate : Bool) (hop : Hop Body)
    (target : ValidatedTarget) : Prop where
  permitted : ∀ domains ∈ policy, domains.permits target.canonicalUrl.host = true
  resolved : ∀ address ∈ target.addresses, target.canonicalUrl.host.ip = some address ∨
    target.canonicalUrl.host.ip = none ∧
      address ∈ hop.resolve target.canonicalUrl.host.value target.canonicalUrl.port
  once : target.addresses.Nodup
  accepted : allowPrivate = false →
    ∀ address ∈ target.addresses, blockedAddressReason address = none

theorem validate_ok {hop : Hop Body} {value : String ⊕ CanonicalWebURL} {target : ValidatedTarget}
    (h : validate platform policy allowPrivate hop value = .ok target) :
    canonicalTarget platform value = .ok target.canonicalUrl ∧
      Validated policy allowPrivate hop target := by
  unfold validate at h
  cases hv : validateRetrievalTarget platform value (policy.map DomainPolicy.permits)
    (some hop.resolve) hop.timesOut allowPrivate with
  | error e =>
    rw [hv] at h
    cases h
  | ok pair =>
    rw [hv] at h
    cases h
    simp only [validateRetrievalTarget, bind_eq_ok, throwing_ok_iff] at hv
    obtain ⟨canonical, hcanonical, hpermits, resolved, hresolved, -, admitted, hadmitted, -, hpair⟩ :=
      hv
    cases hpair
    obtain ⟨hnodup, hmem⟩ := admitAddresses_spec hadmitted
    have haddress : ∀ address ∈ admitted, address ∈ resolved := fun address ha =>
      (hmem address ha).resolve_left not_mem_nil
    refine ⟨hcanonical, fun domains hd => ?_, fun address ha => ?_, hnodup nodup_nil,
      fun hp address ha => admitAddresses_ok hp hadmitted address (haddress address ha)⟩
    · obtain rfl := Option.mem_def.mp hd
      simpa using hpermits
    · have hr := haddress address ha
      rw [resolveTarget.eq_def] at hresolved
      cases hip : canonical.host.ip with
      | some literal =>
        rw [hip] at hresolved
        cases hresolved
        exact .inl (congrArg some (mem_singleton.mp hr).symm)
      | none =>
        rw [hip] at hresolved
        cases htimes : hop.timesOut with
        | true => simp [htimes] at hresolved
        | false =>
          simp only [htimes, Bool.false_eq_true, if_false, Except.ok.injEq] at hresolved
          rw [← hresolved] at hr
          exact .inr ⟨rfl, hr⟩

theorem canonicalizeWebUrl_scheme {value : String} {url : CanonicalWebURL}
    (h : canonicalizeWebUrl platform value = .ok url) :
    url.scheme = "http" ∨ url.scheme = "https" := by
  simp only [canonicalizeWebUrl, throwing_ok_iff] at h
  obtain ⟨-, -, -, h⟩ := h
  cases hparsed : platform.httpxURL value with
  | none => simp [hparsed] at h
  | some parsed =>
    simp only [hparsed, throwing_ok_iff, bind_eq_ok] at h
    obtain ⟨hscheme, -, -, host, -, h⟩ := h
    have hallowed : parsed.scheme.toLower = "http" ∨ parsed.scheme.toLower = "https" := by
      by_contra hnone
      exact hscheme (not_or.mp hnone)
    cases hport : parsed.port with
    | none => simp [hport] at h
    | some explicit =>
      simp only [hport, throwing_ok_iff] at h
      cases hcopy : platform.copyWith parsed parsed.scheme.toLower host.value
        (if explicit.getD (defaultPort parsed.scheme.toLower) = defaultPort parsed.scheme.toLower
          then none else some (explicit.getD (defaultPort parsed.scheme.toLower))) with
      | none => simp [hcopy] at h
      | some normalized =>
        simp only [hcopy] at h
        cases h.2
        exact hallowed

/-! ### What a hop dials -/

/-- A delegated request of the hop's own request, pinned to the address. -/
structure Pinned (settings : TransportSettings) (target : ValidatedTarget)
    (request : DelegatedRequest) : Prop where
  method : request.method = "GET"
  url : settings.withHost target.canonicalUrl.url (settings.text request.address) = some request.url
  host : request.host = some target.canonicalUrl.authority
  sniHostname : request.sniHostname = target.canonicalUrl.host.value

def Phase.pending : Phase → List IPAddress
  | .evicting _ address rest => address :: rest
  | .dialing _ delegated rest => delegated.address :: rest
  | _ => []

/-- The request that is on the wire is pinned. -/
def Phase.Pinned (settings : TransportSettings) (target : ValidatedTarget) : Phase → Prop
  | .dialing _ delegated _ => Network.Pinned settings target delegated
  | _ => True

theorem delegate_pending (settings : TransportSettings) (target : ValidatedTarget) (lease : Lease) (address : IPAddress)
    (rest : List IPAddress) :
    (delegate settings (fetchRequest target) target lease address rest).pending.Sublist
        (address :: rest) ∧
      (delegate settings (fetchRequest target) target lease address rest).Pinned settings target := by
  unfold delegate
  cases hurl : settings.withHost (fetchRequest target).url (settings.text address) with
  | none => exact ⟨nil_sublist _, trivial⟩
  | some url => exact ⟨List.Sublist.refl _, rfl, hurl, rfl, rfl⟩

theorem tryAddresses_pending (settings : TransportSettings) (target : ValidatedTarget)
    (lastConnectError factoryRaises : Bool) (t : PinnedTransport) (addresses : List IPAddress) :
    let phase := (tryAddresses settings (fetchRequest target) target lastConnectError factoryRaises
      t addresses).1
    phase.pending.Sublist addresses ∧ phase.Pinned settings target := by
  intro phase
  cases addresses with
  | nil => cases lastConnectError <;> exact ⟨nil_sublist _, trivial⟩
  | cons address rest =>
    simp only [phase, tryAddresses]
    cases hacquired : t.acquirePool settings.maxPools (poolKey settings target address)
      factoryRaises with
    | mk result t' =>
      cases result with
      | error e => exact ⟨nil_sublist _, trivial⟩
      | ok acquired =>
        obtain ⟨lease, evicted⟩ := acquired
        cases evicted with
        | some entry => exact ⟨List.Sublist.refl _, trivial⟩
        | none => exact delegate_pending settings target lease address rest

/-- The task is the hop's request, and what it has on the wire is pinned. -/
structure PinnedTask.IsFetch (settings : TransportSettings) (target : ValidatedTarget)
    (task : PinnedTask) : Prop where
  sent : task.request = fetchRequest target
  validated : task.target = target
  pinned : task.phase.Pinned settings target

variable {target : ValidatedTarget}

/-- **What an event does to a request**: it dials an address less, and none after one that was
answered with more than a failure to connect. -/
theorem resume_spec {task : PinnedTask} {pools : PinnedTransport} {event : DialEvent} {phase : Phase}
    (hfetch : task.IsFetch settings target) (h : task.resume settings pools event = some phase) :
    ((task.dial event.answer).map (·.request.address) ++ phase.pending).Sublist task.phase.pending ∧
      phase.Pinned settings target ∧
      (phase.pending = [] ∨ ∀ dial ∈ task.dial event.answer, dial.answer = some .connectError) := by
  obtain ⟨request, target', current⟩ := task
  obtain ⟨hsent, hvalidated, -⟩ := hfetch
  simp only at hsent hvalidated
  subst hsent hvalidated
  cases event with
  | evictionEnds raises =>
    cases current with
    | evicting lease address rest =>
      cases raises with
      | true =>
        cases h
        exact ⟨nil_sublist _, trivial, .inl rfl⟩
      | false =>
        cases h
        obtain ⟨hsub, hpinned⟩ := delegate_pending settings target' lease address rest
        exact ⟨hsub, hpinned, .inr fun dial hdial => absurd hdial not_mem_nil⟩
    | dialing lease delegated rest => cases h
    | returned stream => cases h
    | raised error => cases h
  | answered answer factoryRaises =>
    cases current with
    | dialing lease delegated rest =>
      cases answer with
      | connectError =>
        cases h
        obtain ⟨hsub, hpinned⟩ := tryAddresses_pending settings target' true
          factoryRaises (pools.releasePool lease) rest
        refine ⟨hsub.cons_cons delegated.address, hpinned, .inr fun dial hdial => ?_⟩
        rw [mem_singleton.mp hdial]
        rfl
      | raises =>
        cases h
        exact ⟨singleton_sublist.mpr mem_cons_self, trivial, .inl rfl⟩
      | response asyncStream =>
        cases asyncStream with
        | false =>
          cases h
          exact ⟨singleton_sublist.mpr mem_cons_self, trivial, .inl rfl⟩
        | true =>
          cases h
          exact ⟨singleton_sublist.mpr mem_cons_self, trivial, .inl rfl⟩
    | evicting lease address rest => cases h
    | returned stream => cases h
    | raised error => cases h

theorem dial_pinned {task : PinnedTask} (hfetch : task.IsFetch settings target)
    (answer : Option Answer) : ∀ dial ∈ task.dial answer, Pinned settings target dial.request := by
  obtain ⟨request, target', current⟩ := task
  have hpinned := hfetch.pinned
  intro dial hdial
  cases current with
  | dialing lease delegated rest =>
    rw [mem_singleton.mp hdial]
    exact hpinned
  | evicting lease address rest => cases hdial
  | returned stream => cases hdial
  | raised error => cases hdial

theorem dial_pending (task : PinnedTask) (answer : Option Answer) :
    ((task.dial answer).map (·.request.address)).Sublist task.phase.pending ∧
      (task.dial answer).length ≤ 1 := by
  obtain ⟨request, target', current⟩ := task
  cases current with
  | dialing lease delegated rest =>
    exact ⟨singleton_sublist.mpr mem_cons_self, le_rfl⟩
  | evicting lease address rest => exact ⟨nil_sublist _, Nat.zero_le _⟩
  | returned stream => exact ⟨nil_sublist _, Nat.zero_le _⟩
  | raised error => exact ⟨nil_sublist _, Nat.zero_le _⟩

/-- What a request has dialed: addresses it was pinned to, each but the last of which failed to
connect. -/
structure Dialed (settings : TransportSettings) (target : ValidatedTarget)
    (addresses : List IPAddress) (dials : List Dial) : Prop where
  admitted : (dials.map (·.request.address)).Sublist addresses
  pinned : ∀ dial ∈ dials, Pinned settings target dial.request
  retried : ∀ dial ∈ dials.dropLast, dial.answer = some .connectError

theorem Dialed.nil (addresses : List IPAddress) : Dialed settings target addresses [] :=
  ⟨nil_sublist _, fun _ h => absurd h not_mem_nil, fun _ h => absurd h not_mem_nil⟩

theorem await_dialed (events : List (DialEvent × PinnedTransport)) {task : PinnedTask}
    (hfetch : task.IsFetch settings target) :
    Dialed settings target task.phase.pending (task.await settings events).1 := by
  induction events generalizing task with
  | nil =>
    obtain ⟨hsub, hlength⟩ := dial_pending task none
    refine ⟨hsub, dial_pinned hfetch none, fun dial hdial => ?_⟩
    have hnone : (task.dial none).dropLast = [] :=
      eq_nil_of_length_eq_zero (by rw [length_dropLast]; omega)
    rw [PinnedTask.await, hnone] at hdial
    exact absurd hdial not_mem_nil
  | cons head events ih =>
    obtain ⟨event, pools⟩ := head
    cases hresume : task.resume settings pools event with
    | none =>
      simp only [PinnedTask.await, hresume]
      exact ih hfetch
    | some phase =>
      obtain ⟨hsub, hpinned, hretried⟩ := resume_spec hfetch hresume
      have hnext := @ih { task with phase := phase } ⟨hfetch.sent, hfetch.validated, hpinned⟩
      simp only [PinnedTask.await, hresume]
      refine ⟨?_, fun dial hdial => ?_, fun dial hdial => ?_⟩
      · rw [map_append]
        exact (List.Sublist.append (List.Sublist.refl _) hnext.admitted).trans hsub
      · rcases mem_append.mp hdial with hdial | hdial
        · exact dial_pinned hfetch _ dial hdial
        · exact hnext.pinned dial hdial
      · cases hdials : (({ task with phase := phase } : PinnedTask).await settings events).1 with
        | nil =>
          have hlength := (dial_pending task event.answer).2
          have hnone : (task.dial event.answer).dropLast = [] :=
            eq_nil_of_length_eq_zero (by rw [length_dropLast]; omega)
          rw [hdials, append_nil, hnone] at hdial
          exact absurd hdial not_mem_nil
        | cons first rest =>
          have hpending : phase.pending ≠ [] := by
            intro hnone
            have hempty := hnext.admitted
            rw [hdials, hnone, sublist_nil] at hempty
            cases hempty
          rw [dropLast_append_of_ne_nil (by simp [hdials])] at hdial
          rcases mem_append.mp hdial with hdial | hdial
          · exact hretried.resolve_left hpending dial hdial
          · exact hnext.retried dial hdial

theorem target_of_targetFromRequest {allowedMethods : List String} {found : ValidatedTarget}
    (h : targetFromRequest allowedMethods (fetchRequest target) = .ok found) : target = found := by
  simp only [targetFromRequest, fetchRequest, ne_eq, not_true_eq_false, if_false] at h
  split_ifs at h
  exact Except.ok.inj h

theorem send_dialed (hop : Hop Body) (target : ValidatedTarget) :
    Dialed settings target target.addresses (send settings hop target).1 := by
  unfold send
  split_ifs with hexpired
  · exact .nil _
  · simp only [handleAsyncRequest, fetchRequest, Bool.not_true, Bool.false_eq_true, if_false]
    cases htarget : targetFromRequest settings.allowedMethods (fetchRequest target) with
    | error e =>
      simp only [fetchRequest] at htarget
      simp only [htarget]
      exact .nil _
    | ok found =>
      obtain rfl := target_of_targetFromRequest htarget
      obtain ⟨hsub, hpinned⟩ := tryAddresses_pending settings target false
        hop.factoryRaises hop.pools target.addresses
      simp only [fetchRequest] at htarget hsub hpinned
      simp only [htarget]
      obtain ⟨hadmitted, hdialed, hretried⟩ :=
        @await_dialed _ _ hop.events ⟨fetchRequest target, target, _⟩ ⟨rfl, rfl, hpinned⟩
      exact ⟨hadmitted.trans hsub, hdialed, hretried⟩

/-! ### What a redirect leads to -/

/-- **What a redirect does**: it is one more, to a URL that was not visited, and not from HTTPS to
HTTP. -/
theorem advance_ok {tracker tracker' : RedirectTracker} {location : Option String}
    {nextUrl : CanonicalWebURL}
    (h : tracker.advance platform locations location = .ok (nextUrl, tracker')) :
    tracker.redirectsFollowed < tracker.maxRedirects ∧
      ¬ (tracker.current.scheme = "https" ∧ nextUrl.scheme = "http") ∧
      (nextUrl.scheme = "http" ∨ nextUrl.scheme = "https") ∧
      nextUrl.redirectLoopKey ∉ tracker.visited ∧ tracker' = { tracker with
        current := nextUrl
        redirectsFollowed := tracker.redirectsFollowed + 1
        visited := tracker.visited ++ [nextUrl.redirectLoopKey] } := by
  cases location with
  | none => cases h
  | some location =>
    simp only [RedirectTracker.advance] at h
    split_ifs at h with hlimit
    cases hresolved : resolveRedirectUrl platform locations tracker.current location with
    | error message =>
      rw [hresolved] at h
      cases h
    | ok url =>
      simp only [hresolved] at h
      split_ifs at h with hdowngrade hloop
      obtain ⟨rfl, rfl⟩ := Prod.mk.inj (Except.ok.inj h)
      refine ⟨Nat.lt_of_not_le hlimit, hdowngrade, ?_, hloop, rfl⟩
      unfold resolveRedirectUrl at hresolved
      split_ifs at hresolved
      cases hjoined : locations.join tracker.current.url location with
      | none =>
        rw [hjoined] at hresolved
        cases hresolved
      | some joined =>
        rw [hjoined] at hresolved
        exact canonicalizeWebUrl_scheme hresolved

/-- The walk stands at a target that its hop validated and its tracker has recorded. -/
structure Stands (platform : Platform) (policy : Option DomainPolicy) (allowPrivate : Bool)
    (maxRedirects : ℕ) (hop : Hop Body) (target : ValidatedTarget) (tracker : RedirectTracker) :
    Prop where
  current : tracker.current = target.canonicalUrl
  limit : tracker.maxRedirects = maxRedirects
  followed : tracker.redirectsFollowed ≤ maxRedirects
  visited : target.canonicalUrl.redirectLoopKey ∈ tracker.visited
  scheme : target.canonicalUrl.scheme = "http" ∨ target.canonicalUrl.scheme = "https"
  validated : Validated policy allowPrivate hop target

/-- What a walk goes on to from where it stands. -/
structure Follows (target target' : ValidatedTarget) (tracker tracker' : RedirectTracker) : Prop where
  secure : target.canonicalUrl.scheme = "https" → target'.canonicalUrl.scheme = "https"
  fresh : target'.canonicalUrl.redirectLoopKey ∉ tracker.visited
  visited : tracker'.visited = tracker.visited ++ [target'.canonicalUrl.redirectLoopKey]
  followed : tracker'.redirectsFollowed = tracker.redirectsFollowed + 1

variable {maxRedirects : ℕ}

theorem follow_ok {hop next : Hop Body} {response : Response Body} {target target' : ValidatedTarget}
    {tracker tracker' : RedirectTracker}
    (hstands : Stands platform policy allowPrivate maxRedirects hop target tracker)
    (h : follow platform locations policy allowPrivate next response tracker = .ok (target', tracker')) :
    Stands platform policy allowPrivate maxRedirects next target' tracker' ∧
      Follows target target' tracker tracker' := by
  unfold follow at h
  split_ifs at h
  cases hadvance : tracker.advance platform locations response.location with
  | error message =>
    rw [hadvance] at h
    cases h
  | ok pair =>
    obtain ⟨nextUrl, advanced⟩ := pair
    simp only [hadvance] at h
    cases hvalidate : validate platform policy allowPrivate next (.inr nextUrl) with
    | error e =>
      rw [hvalidate] at h
      cases h
    | ok found =>
      rw [hvalidate] at h
      obtain ⟨rfl, rfl⟩ := Prod.mk.inj (Except.ok.inj h)
      obtain ⟨hcanonical, hvalidated⟩ := validate_ok hvalidate
      obtain ⟨hroom, hdowngrade, hscheme, hfresh, rfl⟩ := advance_ok hadvance
      obtain rfl := Except.ok.inj hcanonical
      refine ⟨⟨rfl, hstands.limit, ?_, mem_append_right _ (mem_singleton_self _), hscheme,
        hvalidated⟩, ⟨fun hs => ?_, hfresh, rfl, rfl⟩⟩
      · rw [← hstands.limit]
        exact hroom
      · rw [hstands.current] at hdowngrade
        exact hscheme.resolve_left fun hhttp => hdowngrade ⟨hs, hhttp⟩

/-! ### The walk -/

theorem finish_ok {response : Response Body} {requestedUrl finalUrl : CanonicalWebURL}
    {redirectCount : ℕ} {document : WebFetchResult Body}
    (h : finish response requestedUrl finalUrl redirectCount = .ok document) :
    document.finalUrl = finalUrl ∧ document.redirectCount = redirectCount := by
  unfold finish at h
  split_ifs at h
  cases hbody : response.body with
  | error e =>
    rw [hbody] at h
    cases h
  | ok body =>
    rw [hbody] at h
    cases h
    exact ⟨rfl, rfl⟩

/-- The walks of a fetch with some fuel from where it stands, and how they end. -/
inductive Walk (platform : Platform) (settings : TransportSettings) (policy : Option DomainPolicy)
    (allowPrivate : Bool) (maxRedirects : ℕ) (hops : ℕ → Hop Body) :
    ℕ → ℕ → ValidatedTarget → RedirectTracker → List Visit →
      Option (Except FetchError (WebFetchResult Body)) → Prop where
  | out {i : ℕ} {target : ValidatedTarget} {tracker : RedirectTracker} :
      Walk platform settings policy allowPrivate maxRedirects hops 0 i target tracker [] none
  | stop {fuel i : ℕ} {target : ValidatedTarget} {tracker : RedirectTracker}
      {outcome : Except FetchError (WebFetchResult Body)}
      (hstands : Stands platform policy allowPrivate maxRedirects (hops i) target tracker)
      (hdocument : ∀ document, outcome = .ok document →
        document.finalUrl = target.canonicalUrl ∧ document.redirectCount = tracker.redirectsFollowed) :
      Walk platform settings policy allowPrivate maxRedirects hops (fuel + 1) i target tracker
        [⟨target, (send settings (hops i) target).1⟩] (some outcome)
  | hop {fuel i : ℕ} {target target' : ValidatedTarget} {tracker tracker' : RedirectTracker}
      {visits : List Visit} {outcome : Option (Except FetchError (WebFetchResult Body))}
      (hstands : Stands platform policy allowPrivate maxRedirects (hops i) target tracker)
      (hnext : Stands platform policy allowPrivate maxRedirects (hops (i + 1)) target' tracker')
      (hfollows : Follows target target' tracker tracker')
      (rest : Walk platform settings policy allowPrivate maxRedirects hops fuel (i + 1) target' tracker'
        visits outcome) :
      Walk platform settings policy allowPrivate maxRedirects hops (fuel + 1) i target tracker
        (⟨target, (send settings (hops i) target).1⟩ :: visits) outcome

theorem fetchLoop_walk (settings : TransportSettings) (locations : Locations)
    (hops : ℕ → Hop Body) (requestedUrl : CanonicalWebURL) (fuel : ℕ) {i : ℕ}
    {target : ValidatedTarget} {tracker : RedirectTracker}
    (hstands : Stands platform policy allowPrivate maxRedirects (hops i) target tracker) :
    let r := fetchLoop platform settings locations policy allowPrivate hops requestedUrl fuel i target
      tracker
    Walk platform settings policy allowPrivate maxRedirects hops fuel i target tracker r.1 r.2 := by
  intro r
  induction fuel generalizing i target tracker with
  | zero => exact .out
  | succ fuel ih =>
    have hfailed : ∀ e, Walk platform settings policy allowPrivate maxRedirects hops (fuel + 1) i
        target tracker [⟨target, (send settings (hops i) target).1⟩] (some (.error e)) :=
      fun e => .stop hstands fun document h => by cases h
    cases hsend : send settings (hops i) target with
    | mk dials result =>
      rw [hsend] at hfailed
      cases result with
      | error e =>
        simp only [r, fetchLoop, hsend]
        exact hfailed e
      | ok response =>
        simp only [r, fetchLoop, hsend]
        split_ifs with hredirect
        · cases hfollow : follow platform locations policy allowPrivate (hops (i + 1)) response
            tracker with
          | error e => exact hfailed e
          | ok pair =>
            obtain ⟨target', tracker'⟩ := pair
            obtain ⟨hnext, hfollows⟩ := follow_ok hstands hfollow
            have hhop := Walk.hop hstands hnext hfollows (ih hnext)
            rw [hsend] at hhop
            exact hhop
        · have hstop : Walk platform settings policy allowPrivate maxRedirects hops (fuel + 1) i
              target tracker [⟨target, (send settings (hops i) target).1⟩]
              (some (finish response requestedUrl target.canonicalUrl tracker.redirectsFollowed)) :=
            .stop hstands fun document => finish_ok
          rw [hsend] at hstop
          exact hstop

namespace Walk
variable {hops : ℕ → Hop Body} {fuel i : ℕ} {tracker : RedirectTracker} {visits : List Visit}
  {outcome : Option (Except FetchError (WebFetchResult Body))}

theorem validated (h : Walk platform settings policy allowPrivate maxRedirects hops fuel i target
    tracker visits outcome) :
    ∀ j visit, visits[j]? = some visit → Validated policy allowPrivate (hops (i + j)) visit.target ∧
      Dialed settings visit.target visit.target.addresses visit.dials := by
  induction h with
  | out =>
    intro j visit hj
    cases hj
  | stop hstands _ =>
    intro j visit hj
    cases j with
    | zero =>
      cases hj
      exact ⟨hstands.validated, send_dialed _ _⟩
    | succ j => cases hj
  | hop hstands hnext hfollows rest ih =>
    intro j visit hj
    cases j with
    | zero =>
      cases hj
      exact ⟨hstands.validated, send_dialed _ _⟩
    | succ j =>
      rw [List.getElem?_cons_succ] at hj
      rw [← Nat.add_assoc, Nat.add_right_comm]
      exact ih j visit hj

theorem bounded (h : Walk platform settings policy allowPrivate maxRedirects hops fuel i target
    tracker visits outcome) (hfollowed : tracker.redirectsFollowed ≤ maxRedirects) :
    tracker.redirectsFollowed + visits.length ≤ maxRedirects + 1 := by
  induction h with
  | out => exact Nat.le_succ_of_le hfollowed
  | stop hstands _ => exact Nat.add_le_add_right hfollowed 1
  | hop hstands hnext hfollows rest ih =>
    have hrest := ih hnext.followed
    rw [hfollows.followed] at hrest
    rw [length_cons]
    omega

theorem secure (h : Walk platform settings policy allowPrivate maxRedirects hops fuel i target
    tracker visits outcome) : (target.canonicalUrl.scheme = "https" →
        ∀ visit ∈ visits, visit.target.canonicalUrl.scheme = "https") ∧
      visits.Pairwise fun a b => a.target.canonicalUrl.scheme = "https" →
        b.target.canonicalUrl.scheme = "https" := by
  induction h with
  | out => exact ⟨fun _ _ h => absurd h not_mem_nil, .nil⟩
  | stop hstands _ =>
    refine ⟨fun hs visit hvisit => ?_, pairwise_singleton _ _⟩
    rw [mem_singleton.mp hvisit]
    exact hs
  | hop hstands hnext hfollows rest ih =>
    obtain ⟨hall, hpairs⟩ := ih
    exact ⟨fun hs => forall_mem_cons.mpr ⟨hs, hall (hfollows.secure hs)⟩,
      pairwise_cons.mpr ⟨fun visit hvisit hs => hall (hfollows.secure hs) visit hvisit, hpairs⟩⟩

theorem once (h : Walk platform settings policy allowPrivate maxRedirects hops fuel i target tracker
    visits outcome) : (visits.map (·.target.canonicalUrl.redirectLoopKey)).Nodup ∧
      (∀ visit ∈ visits.tail, visit.target.canonicalUrl.redirectLoopKey ∉ tracker.visited) ∧
      ∀ visit ∈ visits.head?, visit.target = target := by
  induction h with
  | out => exact ⟨nodup_nil, fun _ h => absurd h not_mem_nil, fun _ h => by cases h⟩
  | stop hstands _ =>
    exact ⟨nodup_singleton _, fun _ h => absurd h not_mem_nil, fun _ h => by cases h; rfl⟩
  | @hop fuel i target target' tracker tracker' visits outcome hstands hnext hfollows rest ih =>
    obtain ⟨hnodup, htail, hhead⟩ := ih
    have hfresh : ∀ visit ∈ visits, visit.target.canonicalUrl.redirectLoopKey ∉ tracker.visited := by
      intro visit hvisit hold
      cases visits with
      | nil => exact absurd hvisit not_mem_nil
      | cons first visits =>
        rcases mem_cons.mp hvisit with rfl | hvisit
        · rw [hhead visit rfl] at hold
          exact hfollows.fresh hold
        · refine htail visit hvisit ?_
          rw [hfollows.visited]
          exact mem_append_left _ hold
    refine ⟨nodup_cons.mpr ⟨fun hmem => ?_, hnodup⟩, hfresh, fun _ h => by cases h; rfl⟩
    obtain ⟨visit, hvisit, hkey⟩ := mem_map.mp hmem
    refine hfresh visit hvisit ?_
    rw [hkey]
    exact hstands.visited

theorem ends (h : Walk platform settings policy allowPrivate maxRedirects hops fuel i target tracker
    visits outcome) (hfollowed : tracker.redirectsFollowed ≤ maxRedirects)
    (hfuel : maxRedirects < tracker.redirectsFollowed + fuel) : outcome.isSome = true := by
  induction h with
  | out => omega
  | stop hstands _ => rfl
  | hop hstands hnext hfollows rest ih =>
    refine ih hnext.followed ?_
    rw [hfollows.followed]
    omega

theorem document (h : Walk platform settings policy allowPrivate maxRedirects hops fuel i target
    tracker visits outcome) {document : WebFetchResult Body} (hok : outcome = some (.ok document)) :
    visits.getLast?.map (·.target.canonicalUrl) = some document.finalUrl ∧
      document.redirectCount + 1 = tracker.redirectsFollowed + visits.length := by
  induction h with
  | out => cases hok
  | stop hstands hdocument =>
    obtain ⟨hfinal, hcount⟩ := hdocument document (Option.some.inj hok)
    rw [hfinal, hcount]
    exact ⟨rfl, rfl⟩
  | @hop fuel i target target' tracker tracker' visits outcome hstands hnext hfollows rest ih =>
    obtain ⟨hfinal, hcount⟩ := ih hok
    cases visits with
    | nil => cases hfinal
    | cons first visits =>
      refine ⟨by rw [List.getLast?_cons_cons]; exact hfinal, ?_⟩
      rw [hcount, hfollows.followed]
      simp only [length_cons]
      omega

end Walk

/-- What holds of the hops that a fetch requests, and of how it ends. -/
structure WalkSafe (settings : TransportSettings) (policy : Option DomainPolicy)
    (allowPrivate : Bool) (hops : ℕ → Hop Body) (maxRedirects fuel : ℕ)
    (walk : List Visit × Option (Except FetchError (WebFetchResult Body))) : Prop where
  validated : ∀ i visit, walk.1[i]? = some visit →
    Validated policy allowPrivate (hops i) visit.target
  dialed : ∀ visit ∈ walk.1, Dialed settings visit.target visit.target.addresses visit.dials
  bounded : walk.1.length ≤ maxRedirects + 1
  secure : walk.1.Pairwise fun a b => a.target.canonicalUrl.scheme = "https" →
    b.target.canonicalUrl.scheme = "https"
  once : (walk.1.map (·.target.canonicalUrl.redirectLoopKey)).Nodup
  ends : maxRedirects < fuel → walk.2.isSome = true
  document : ∀ document, walk.2 = some (.ok document) →
    walk.1.getLast?.map (·.target.canonicalUrl) = some document.finalUrl ∧
      document.redirectCount + 1 = walk.1.length

/-- **Pinned walk safety**, of every URL and policy, whatever its hops meet. -/
theorem fetch_walk_safe (platform : Platform) (settings : TransportSettings) (locations : Locations)
    (policy : Option DomainPolicy) (allowPrivate : Bool) (hops : ℕ → Hop Body)
    (maxRedirects fuel : ℕ) (url : String) :
    WalkSafe settings policy allowPrivate hops maxRedirects fuel
      (fetch platform settings locations policy allowPrivate hops maxRedirects fuel url) := by
  unfold fetch
  cases hvalidate : validate platform policy allowPrivate (hops 0) (.inl url) with
  | error e =>
    exact ⟨fun i visit h => (by cases h), fun visit h => absurd h List.not_mem_nil, Nat.zero_le _,
      .nil, List.nodup_nil, fun _ => rfl, fun document h => (by cases h)⟩
  | ok target =>
    obtain ⟨hcanonical, hvalidated⟩ := validate_ok hvalidate
    have hscheme : target.canonicalUrl.scheme = "http" ∨ target.canonicalUrl.scheme = "https" := by
      rw [canonicalTarget] at hcanonical
      cases hurl : canonicalizeWebUrl platform url with
      | error message =>
        rw [hurl] at hcanonical
        cases hcanonical
      | ok canonical =>
        rw [hurl] at hcanonical
        obtain rfl := Except.ok.inj hcanonical
        exact canonicalizeWebUrl_scheme hurl
    have hstands : Stands platform policy allowPrivate maxRedirects (hops 0) target
        (.start target.canonicalUrl maxRedirects) :=
      ⟨rfl, rfl, Nat.zero_le _, List.mem_singleton_self _, hscheme, hvalidated⟩
    have hwalk := fetchLoop_walk settings locations hops target.canonicalUrl fuel hstands
    refine ⟨fun i visit h => ?_, fun visit h => ?_, ?_, hwalk.secure.2, hwalk.once.1, fun h => ?_,
      fun document h => ?_⟩
    · have hi := (hwalk.validated i visit h).1
      rwa [Nat.zero_add] at hi
    · obtain ⟨i, hi⟩ := List.mem_iff_getElem?.mp h
      exact (hwalk.validated i visit hi).2
    · have hbounded := hwalk.bounded (Nat.zero_le _)
      rwa [RedirectTracker.start, Nat.zero_add] at hbounded
    · exact hwalk.ends (Nat.zero_le _) (by rwa [RedirectTracker.start, Nat.zero_add])
    · have hdocument := hwalk.document h
      rwa [RedirectTracker.start, Nat.zero_add] at hdocument

end Otari.Network

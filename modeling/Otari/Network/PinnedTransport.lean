import Otari.Network.Gates

/-!
# Network — PinnedTransport — requests on leased pools

`web_retrieval_network.py`: `PinnedAsyncHTTPTransport`, with the requests it handles and the response
streams it has returned.  A step takes one task from an await to its next; what runs under the pool
lock awaits nothing, so the lock is never waited for.  Beside the pools stand how many leases were
taken, which were released, and which pools were evicted.
-/

namespace Otari.Network

/-- `ValidatedTarget`. -/
structure ValidatedTarget where
  canonicalUrl : CanonicalWebURL
  addresses : List IPAddress

/-- `CanonicalHost.url_host`. -/
def CanonicalHost.urlHost (host : CanonicalHost) : String :=
  match host.ip with
  | some (.v6 _) => "[" ++ host.value ++ "]"
  | _ => host.value

/-- `CanonicalOrigin.authority`. -/
def CanonicalWebURL.authority (url : CanonicalWebURL) : String :=
  if url.port = defaultPort url.scheme then url.host.urlHost
  else url.host.urlHost ++ ":" ++ toString url.port

/-- A request; `target` is its validated target, where its extensions hold one. -/
structure Request where
  method : String
  url : HttpxURL
  host : Option String
  target : Option ValidatedTarget
  asyncStream : Bool

/-- A request on a pinned address, whose certificate is verified against `sniHostname`. -/
structure DelegatedRequest where
  method : String
  url : HttpxURL
  host : Option String
  address : IPAddress
  sniHostname : String

/-- What a request raises: `PinnedTransportError`, the last failure to connect, or another exception,
which is passed on. -/
inductive TransportError where
  | pinned (message : String)
  | connect
  | raised

abbrev PoolKey := String × String × ℕ × String

/-- A pool, as `_acquire_pool` hands it out. -/
structure Lease where
  id : ℕ
  key : PoolKey
  entry : ℕ
deriving DecidableEq

/-- The transport's pools, least recently used first, over the entries it made, each with its
`active_responses`. -/
structure PinnedTransport where
  closed : Bool := false
  pools : List (PoolKey × ℕ) := []
  entries : List ℤ := []
  leased : ℕ := 0
  released : List ℕ := []
  evicted : List ℕ := []

/-- What the transport is made with: the names of addresses, `URL.copy_with(host=…)`, which is `none`
where it raises, and its own settings. -/
structure TransportSettings where
  text : IPAddress → String
  withHost : HttpxURL → String → Option HttpxURL
  allowedMethods : List String := ["GET"]
  maxPools : ℕ := 100

/-- `_target_from_request`. -/
def targetFromRequest (allowedMethods : List String) (request : Request) :
    Except TransportError ValidatedTarget :=
  match request.target with
  | none => .error (.pinned "request is missing its validated retrieval target")
  | some target =>
    if request.url ≠ target.canonicalUrl.url then
      .error (.pinned "request URL does not match its validated retrieval target")
    else if request.method ∉ allowedMethods then
      .error (.pinned ("this transport permits " ++
        ", ".intercalate (allowedMethods.mergeSort fun a b => decide (a ≤ b)) ++ " requests only"))
    else if request.host ≠ some target.canonicalUrl.authority then
      .error (.pinned "request Host does not match its validated retrieval target")
    else
      .ok target

/-! ### The pools -/

namespace PinnedTransport
variable (t : PinnedTransport)

/-- `pools.move_to_end(key)`. -/
def moveToEnd (key : PoolKey) (entry : ℕ) : PinnedTransport :=
  { t with pools := t.pools.filter (·.1 ≠ key) ++ [(key, entry)] }

/-- `entry.active_responses += 1`. -/
def lease (key : PoolKey) (entry : ℕ) : Lease × PinnedTransport :=
  (⟨t.leased, key, entry⟩,
    { t with entries := t.entries.modify entry (· + 1), leased := t.leased + 1 })

/-- `self._pools[key] = _PoolEntry(transport=self._transport_factory())`, leased. -/
def addPool (key : PoolKey) (factoryRaises : Bool) (evicted : Option ℕ) :
    Except TransportError (Lease × Option ℕ) × PinnedTransport :=
  if factoryRaises then
    (.error .raised, t)
  else
    let (lease, t') := { t with
      pools := t.pools ++ [(key, t.entries.length)]
      entries := t.entries ++ [0] : PinnedTransport }.lease key t.entries.length
    (.ok (lease, evicted), t')

/-- `del self._pools[candidate_key]`. -/
def evict (candidate : PoolKey × ℕ) : PinnedTransport :=
  { t with
    pools := t.pools.filter (·.1 ≠ candidate.1)
    evicted := t.evicted ++ [candidate.2] }

/-- `_acquire_pool` up to its await: the lease, and the entry evicted for it. -/
def acquirePool (maxPools : ℕ) (key : PoolKey) (factoryRaises : Bool) :
    Except TransportError (Lease × Option ℕ) × PinnedTransport :=
  if t.closed then
    (.error (.pinned "web retrieval transport is closed"), t)
  else
    match t.pools.lookup key with
    | some entry =>
      let (lease, t') := (t.moveToEnd key entry).lease key entry
      (.ok (lease, none), t')
    | none =>
      if maxPools ≤ t.pools.length then
        match t.pools.find? fun pool => t.entries[pool.2]? = some 0 with
        | none => (.error (.pinned "web retrieval connection pool capacity is in use"), t)
        | some candidate => (t.evict candidate).addPool key factoryRaises (some candidate.2)
      else
        t.addPool key factoryRaises none

/-- `_release_pool`. -/
def releasePool (lease : Lease) : PinnedTransport :=
  let t' := { t with
    entries := t.entries.modify lease.entry (· - 1)
    released := t.released ++ [lease.id] : PinnedTransport }
  if t.pools.lookup lease.key = some lease.entry then t'.moveToEnd lease.key lease.entry else t'

end PinnedTransport

/-! ### Requests and streams -/

/-- Where a request awaits, or how it ended. -/
inductive Phase where
  | evicting (lease : Lease) (address : IPAddress) (rest : List IPAddress)
  | dialing (lease : Lease) (delegated : DelegatedRequest) (rest : List IPAddress)
  | returned (stream : ℕ)
  | raised (error : TransportError)

structure PinnedTask where
  request : Request
  target : ValidatedTarget
  phase : Phase

inductive Answer where
  | connectError
  | raises
  | response (asyncStream : Bool)

inductive StreamPhase where
  | reading
  | closing
  | closed
deriving DecidableEq

/-- `_LeasedAsyncResponseStream`; its `_closed` is set where it is not being read. -/
structure LeasedStream where
  lease : Lease
  phase : StreamPhase := .reading

/-- The transport, the requests it was given targets for and the streams it returned. -/
structure Traffic where
  transport : PinnedTransport := {}
  tasks : List PinnedTask := []
  streams : List LeasedStream := []

inductive Traffic.Event where
  | request (request : Request) (factoryRaises : Bool)
  | evictionEnds (task : ℕ) (raises : Bool)
  | answered (task : ℕ) (answer : Answer) (factoryRaises : Bool)
  | closeStream (stream : ℕ)
  | streamClosed (stream : ℕ)
  | closeTransport

section
variable (settings : TransportSettings)

/-- `_pool_key`. -/
def poolKey (target : ValidatedTarget) (address : IPAddress) : PoolKey :=
  (target.canonicalUrl.scheme, target.canonicalUrl.host.value, target.canonicalUrl.port,
    settings.text address)

/-- The delegated request is built, outside of any `try`, and sent. -/
def delegate (request : Request) (target : ValidatedTarget) (lease : Lease) (address : IPAddress)
    (rest : List IPAddress) : Phase :=
  match settings.withHost request.url (settings.text address) with
  | none => .raised .raised
  | some url =>
    .dialing lease ⟨request.method, url, request.host, address, target.canonicalUrl.host.value⟩ rest

/-- The loop of `handle_async_request`, to its next await. -/
def tryAddresses (request : Request) (target : ValidatedTarget) (lastConnectError : Bool)
    (factoryRaises : Bool) (t : PinnedTransport) : List IPAddress → Phase × PinnedTransport
  | [] =>
    if lastConnectError then (.raised .connect, t)
    else (.raised (.pinned "validated retrieval target has no addresses"), t)
  | address :: rest =>
    match t.acquirePool settings.maxPools (poolKey settings target address) factoryRaises with
    | (.error e, t') => (.raised e, t')
    | (.ok (lease, some _), t') => (.evicting lease address rest, t')
    | (.ok (lease, none), t') => (delegate settings request target lease address rest, t')

/-- `handle_async_request`, to its first await. -/
def handleAsyncRequest (request : Request) (factoryRaises : Bool) (t : PinnedTransport) :
    Except TransportError (PinnedTask × PinnedTransport) :=
  if !request.asyncStream then
    .error (.pinned "web retrieval request stream must be asynchronous")
  else
    match targetFromRequest settings.allowedMethods request with
    | .error e => .error e
    | .ok target =>
      let (phase, t') := tryAddresses settings request target false factoryRaises t target.addresses
      .ok (⟨request, target, phase⟩, t')

/-- The evicted pool has closed, or raised. -/
def evictionEnds (task : PinnedTask) (raises : Bool) (t : PinnedTransport) : Option (Phase × PinnedTransport) :=
  match task.phase with
  | .evicting lease address rest =>
    if raises then some (.raised .raised, t.releasePool lease)
    else some (delegate settings task.request task.target lease address rest, t)
  | _ => none

/-- A delegated request has ended; `stream` is the stream it would return. -/
def answered (task : PinnedTask) (answer : Answer) (factoryRaises : Bool) (stream : ℕ)
    (t : PinnedTransport) : Option (Phase × PinnedTransport × Option LeasedStream) :=
  match task.phase with
  | .dialing lease _ rest =>
    match answer with
    | .connectError =>
      let (phase, t') :=
        tryAddresses settings task.request task.target true factoryRaises (t.releasePool lease) rest
      some (phase, t', none)
    | .raises => some (.raised .raised, t.releasePool lease, none)
    | .response false =>
      some (.raised (.pinned "delegated transport returned a synchronous response stream"),
        t.releasePool lease, none)
    | .response true => some (.returned stream, t, some { lease := lease })
  | _ => none

/-- One task runs from an await to its next. -/
def Traffic.step (s : Traffic) : Event → Option Traffic
  | .request request factoryRaises =>
    match handleAsyncRequest settings request factoryRaises s.transport with
    | .error _ => some s
    | .ok (task, t) => some { s with transport := t, tasks := s.tasks ++ [task] }
  | .evictionEnds i raises => do
    let task ← s.tasks[i]?
    let (phase, t) ← evictionEnds settings task raises s.transport
    return { s with transport := t, tasks := s.tasks.set i { task with phase := phase } }
  | .answered i answer factoryRaises => do
    let task ← s.tasks[i]?
    let (phase, t, stream) ←
      answered settings task answer factoryRaises s.streams.length s.transport
    return {
      transport := t
      tasks := s.tasks.set i { task with phase := phase }
      streams := s.streams ++ stream.toList }
  | .closeStream j => do
    let stream ← s.streams[j]?
    -- a stream that is closing or closed is left at once
    if stream.phase = .reading then
      return { s with streams := s.streams.set j { stream with phase := .closing } }
    else
      return s
  | .streamClosed j => do
    let stream ← s.streams[j]?
    -- however the stream's own close ended, the lease is released
    if stream.phase = .closing then
      return { s with
        transport := s.transport.releasePool stream.lease
        streams := s.streams.set j { stream with phase := .closed } }
    else
      none
  | .closeTransport => some { s with transport := { s.transport with closed := true, pools := [] } }

def Traffic.run : Traffic → List Event → Option Traffic
  | s, [] => some s
  | s, event :: events => (s.step settings event).bind (run · events)

/-- The states of a transport. -/
inductive Traffic.Reachable : Traffic → Prop where
  | start : Reachable {}
  | step {s s' : Traffic} (h : Reachable s) {event : Traffic.Event}
      (hs : s.step settings event = some s') : Reachable s'

end

end Otari.Network

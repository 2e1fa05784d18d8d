import Otari.Network.Addresses

/-!
# Network — Gates — the checks before a user-named host is contacted

`url_safety.py` and `web_retrieval_network.py` over what they call outside the repository: the URL
parsers, the parser of addresses, the IDNA codec and the resolver.
-/

namespace Otari.Network

/-- `_blocked_reason`. -/
def blockedReason (addr : IPAddress) : Option String :=
  if addr.isUnspecified then some "unspecified (0.0.0.0/::)"
  else if addr.isLoopback then some "loopback"
  else if addr.isLinkLocal then some "link-local"
  else if addr.isMulticast then some "multicast"
  else if addr.isPrivate then some "in a private range (RFC 1918 / ULA)"
  else if addr.isReserved then some "in a reserved range"
  else none

/-- `blocked_address_reason`. -/
def blockedAddressReason (address : IPAddress) : Option String :=
  if address.isUnspecified then some "unspecified"
  else if address.isLoopback then some "loopback"
  else if address.isLinkLocal then some "link-local"
  else if address.isMulticast then some "multicast"
  else if address.isPrivate then some "private"
  else if address.isReserved then some "reserved"
  else if !address.isGlobal then some "non-global"
  else none

/-- What `urlparse` reads of a URL; `port` is `none` where reading it raises. -/
structure ParseResult where
  scheme : String
  netloc : String
  hostname : Option String
  port : Option (Option ℕ)

/-- What `httpx.URL` reads of a URL; `port` is `none` where reading it raises. -/
structure HttpxURL where
  scheme : String
  host : String
  userinfo : String
  isAbsoluteUrl : Bool
  port : Option (Option ℕ)
  rawPath : String := "/"
deriving DecidableEq

/-- What the gates call: `none` is an exception that the caller catches. -/
structure Platform where
  urlparse : String → Option ParseResult
  ipAddress : String → Option IPAddress
  compressed : IPAddress → String
  getaddrinfo : String → Option ℕ → Option (List String)
  httpxURL : String → Option HttpxURL
  copyWith : HttpxURL → String → String → Option ℕ → Option HttpxURL
  idnaEncode : String → Option String

/-- The settings that turn the address checks off, or loopback on. -/
structure Settings where
  mcpAllowLoopback : Bool := true
  mcpAllowPrivateHosts : Bool := false
  webSearchAllowPrivateHosts : Bool := false
  providerAllowPrivateHosts : Bool := true

inductive UnsafeURLError where
  | authority (label : String)
  | port (label : String)
  | scheme (label : String) (scheme : String)
  | insecureCredential (label : String)
  | insecureFederation
  | noHostname (label : String)
  | unresolved (label : String) (host : String) (override : String)
  | blocked (label : String) (host : String) (address : IPAddress) (reason : String)
      (override : String)

section
variable (platform : Platform)

/-- `_parse_safe_url`. -/
def parseSafeUrl (url : String) (label : String) : Except UnsafeURLError ParseResult :=
  match platform.urlparse url with
  | none => .error (.authority label)
  | some parsed =>
    match parsed.port with
    | some _ => .ok parsed
    | none =>
      let hostAndPort := parsed.netloc.toList.reverse.takeWhile (· ≠ '@')
      if '[' ∉ hostAndPort ∧ 1 < hostAndPort.count ':' then
        .error (.authority label)
      else
        .error (.port label)

/-- `_resolve_all_async`. -/
def resolveAll (host : String) (port : Option ℕ := none) : List IPAddress :=
  match platform.getaddrinfo host port with
  | none => []
  | some infos => infos.filterMap platform.ipAddress

/-- The address a host is written as, or those it resolves to. -/
def addressesOf (host : String) : List IPAddress :=
  match platform.ipAddress host with
  | some literal => [literal]
  | none => resolveAll platform host

def rejectAddresses (label host override : String) (allowLoopback : Bool) :
    List IPAddress → Except UnsafeURLError Unit
  | [] => .ok ()
  | addr :: addresses =>
    if addr.isLoopback && allowLoopback then
      rejectAddresses label host override allowLoopback addresses
    else
      match blockedReason addr with
      | some reason => .error (.blocked label host addr reason override)
      | none => rejectAddresses label host override allowLoopback addresses

/-- `_reject_internal_host`, which the MCP gate writes out with its own allowance for loopback. -/
def rejectInternalHost (host label override : String) (allowLoopback : Bool) :
    Except UnsafeURLError Unit :=
  if platform.ipAddress host = none ∧ resolveAll platform host = [] then
    .error (.unresolved label host override)
  else
    rejectAddresses label host override allowLoopback (addressesOf platform host)

variable (settings : Settings)

/-- The scheme and the host of a URL, in the order the gates check them. -/
def httpHost (url label : String) : Except UnsafeURLError (String × Option String) := do
  let parsed ← parseSafeUrl platform url label
  if parsed.scheme.toLower ≠ "http" ∧ parsed.scheme.toLower ≠ "https" then
    throw (.scheme label parsed.scheme.toLower)
  return (parsed.scheme.toLower, parsed.hostname)

/-- `if not host`. -/
def requireHost (host : Option String) (label : String) : Except UnsafeURLError String :=
  match host with
  | some host => if host = "" then .error (.noHostname label) else .ok host
  | none => .error (.noHostname label)

/-- `validate_mcp_url`. -/
def validateMcpUrl (url : String) (hasAuthorizationToken : Bool) (label : String := "MCP server") :
    Except UnsafeURLError Unit := do
  let (scheme, host) ← httpHost platform url label
  if scheme = "http" ∧ hasAuthorizationToken then
    throw (.insecureCredential label)
  let host ← requireHost host label
  if settings.mcpAllowPrivateHosts then
    return ()
  rejectInternalHost platform host label "OTARI_MCP_ALLOW_PRIVATE_HOSTS" settings.mcpAllowLoopback

/-- `validate_outbound_fetch_url`. -/
def validateOutboundFetchUrl (url : String) : Except UnsafeURLError Unit := do
  let (_, host) ← httpHost platform url "fetch"
  let host ← requireHost host "fetch"
  if settings.webSearchAllowPrivateHosts then
    return ()
  rejectInternalHost platform host "fetch" "OTARI_WEB_SEARCH_ALLOW_PRIVATE_HOSTS" false

/-- `validate_provider_api_base`: off, it imposes no shape either. -/
def validateProviderApiBase (url : String) : Except UnsafeURLError Unit := do
  if settings.providerAllowPrivateHosts then
    return ()
  let (_, host) ← httpHost platform url "provider api_base"
  let host ← requireHost host "provider api_base"
  rejectInternalHost platform host "provider api_base" "OTARI_PROVIDER_ALLOW_PRIVATE_HOSTS" false

/-- `validate_federation_url`. -/
def validateFederationUrl (url : String) (allowPrivateHosts : Bool := false) :
    Except UnsafeURLError Unit := do
  let parsed ← parseSafeUrl platform url "federation"
  if parsed.scheme.toLower ≠ "https" then
    throw .insecureFederation
  let host ← requireHost parsed.hostname "federation"
  if allowPrivateHosts then
    return ()
  rejectInternalHost platform host "federation" "OTARI_FEDERATION_ALLOW_PRIVATE_HOSTS" false

end

/-! ### Retrieval targets -/

/-- `CanonicalHost`. -/
structure CanonicalHost where
  value : String
  ip : Option IPAddress := none
deriving DecidableEq

/-- `CanonicalWebURL` with its origin. -/
structure CanonicalWebURL where
  url : HttpxURL
  scheme : String
  host : CanonicalHost
  port : ℕ

inductive RetrievalTargetError where
  | url (message : String)
  | policy
  | unresolved
  | deadline
  | disallowed (reason : String)
  | noAddresses

section
variable (platform : Platform)

def containsControlCharacter (value : String) : Bool :=
  value.toList.any fun c => c.val < 0x20 || c.val == 0x7F

/-- A name with at most one root dot at its end, without it. -/
def withoutRootDot (name : List Char) : Except String (List Char) :=
  if ['.', '.'].isSuffixOf name then
    .error "hostname may contain at most one terminal root dot"
  else
    let candidate := if ['.'].isSuffixOf name then name.dropLast else name
    if candidate = [] ∨ ['.', '.'] <:+: candidate then
      .error "hostname contains an empty label"
    else
      .ok candidate

/-- `canonicalize_host`. -/
def canonicalizeHost (value : String) : Except String CanonicalHost :=
  if value = "" ∨ containsControlCharacter value then
    .error "hostname is empty or contains a control character"
  else if '%' ∈ value.toList ∧ ':' ∈ value.toList then
    .error "scoped IPv6 addresses are not allowed"
  else
    match platform.ipAddress value with
    | some parsed => .ok ⟨platform.compressed parsed, some parsed⟩
    | none =>
      match platform.idnaEncode value with
      | none => .error "hostname is not valid IDNA"
      | some ascii => do
        let candidate ← withoutRootDot ascii.toLower.toList
        match platform.ipAddress (String.ofList candidate) with
        | none => return ⟨String.ofList candidate, none⟩
        | some mapped => return ⟨platform.compressed mapped, some mapped⟩

/-- `_DEFAULT_PORTS`, of a scheme that is allowed. -/
def defaultPort (scheme : String) : ℕ :=
  if scheme = "http" then 80 else 443

/-- `canonicalize_web_url`. -/
def canonicalizeWebUrl (value : String) : Except String CanonicalWebURL := do
  if value = "" then throw "URL must be a non-empty string"
  if 8192 < value.length then throw "URL exceeds the 8192-character limit"
  if containsControlCharacter value then throw "URL contains a control character"
  let some parsed := platform.httpxURL value | throw "URL is malformed"
  let scheme := parsed.scheme.toLower
  if scheme ≠ "http" ∧ scheme ≠ "https" then throw "URL must use http or https"
  if !parsed.isAbsoluteUrl ∨ parsed.host = "" then
    throw "URL must be absolute and include a hostname"
  if parsed.userinfo ≠ "" then throw "URL user information is not allowed"
  let host ← canonicalizeHost platform parsed.host
  let some explicit := parsed.port | throw "URL has an invalid port"
  let port := explicit.getD (defaultPort scheme)
  if port < 1 ∨ 65535 < port then throw "URL port is outside the valid range"
  let some normalized := platform.copyWith parsed scheme host.value
      (if port = defaultPort scheme then none else some port) |
    throw "URL authority is malformed"
  return ⟨normalized, scheme, host, port⟩

/-- `SystemAddressResolver.resolve`: each address once. -/
def systemResolve (host : String) (port : ℕ) : List IPAddress :=
  (resolveAll platform host port).foldl
    (fun result address => if address ∈ result then result else result ++ [address]) []

/-- The loop of `validate_retrieval_target` over what was resolved. -/
def admitAddresses (allowPrivate : Bool) (admitted : List IPAddress) :
    List IPAddress → Except RetrievalTargetError (List IPAddress)
  | [] => .ok admitted
  | address :: addresses =>
    match blockedAddressReason address with
    | some reason =>
      if !allowPrivate then
        .error (.disallowed reason)
      else
        admitAddresses allowPrivate
          (if address ∈ admitted then admitted else admitted ++ [address]) addresses
    | none =>
      admitAddresses allowPrivate
        (if address ∈ admitted then admitted else admitted ++ [address]) addresses

/-- What resolves a host and port: the caller's resolver, or the system's. -/
def resolveWith (resolver : Option (String → ℕ → List IPAddress)) (host : String) (port : ℕ) :
    List IPAddress :=
  match resolver with
  | some resolve => resolve host port
  | none => systemResolve platform host port

/-- The canonical URL of a target, which may have been canonicalized before. -/
def canonicalTarget : String ⊕ CanonicalWebURL → Except RetrievalTargetError CanonicalWebURL
  | .inl value => (canonicalizeWebUrl platform value).mapError .url
  | .inr canonical => .ok canonical

/-- The literal address of the host, or what it resolves to before the deadline. -/
def resolveTarget (canonical : CanonicalWebURL) (resolver : Option (String → ℕ → List IPAddress))
    (timesOut : Bool) : Except RetrievalTargetError (List IPAddress) :=
  match canonical.host.ip with
  | some literal => .ok [literal]
  | none =>
    if timesOut then
      .error .deadline
    else
      .ok (resolveWith platform resolver canonical.host.value canonical.port)

/-- `validate_retrieval_target`; `permits` is the domain policy, where there is one, and `timesOut`
whether the deadline passes before the resolver answers.  An address is read back from its text as
itself. -/
def validateRetrievalTarget (value : String ⊕ CanonicalWebURL)
    (permits : Option (CanonicalHost → Bool)) (resolver : Option (String → ℕ → List IPAddress))
    (timesOut allowPrivate : Bool) :
    Except RetrievalTargetError (CanonicalWebURL × List IPAddress) := do
  let canonical ← canonicalTarget platform value
  if permits.any fun permits => !permits canonical.host then
    throw .policy
  let resolved ← resolveTarget platform canonical resolver timesOut
  if resolved = [] then
    throw .unresolved
  let admitted ← admitAddresses allowPrivate [] resolved
  if admitted = [] then
    throw .noAddresses
  return (canonical, admitted)

end

end Otari.Network

import Otari.Network.Gates
import Otari.Support.Outcome

/-!
# Network — OutboundSafety — what the gates let through

The two filters differ on the shared address space alone, which `blockedReason` lets through;
`outbound_safety_iff` says of every call of a gate when what it accepts is safe.
-/

namespace Otari.Network

/-- `100.64.0.0/10`, or what maps it: the addresses carriers share among their customers. -/
def IPAddress.isShared : IPAddress → Bool
  | .v4 address => IPv4Address.publicNetwork.contains address
  | .v6 address => address.ipv4Mapped.any IPv4Address.publicNetwork.contains

/-! ### Networks -/

namespace IPNetwork
variable {w : ℕ} {a b : IPNetwork w} {address : BitVec w}

/-- The two agree on the bits both of them fix. -/
def overlaps (a b : IPNetwork w) : Bool :=
  a.base.toNat >>> (w - min a.length b.length) == b.base.toNat >>> (w - min a.length b.length)

def within (a b : IPNetwork w) : Bool :=
  decide (b.length ≤ a.length) && a.overlaps b

theorem shiftRight_of_contains (h : a.contains address = true) {length : ℕ}
    (hl : length ≤ a.length) : address.toNat >>> (w - length) = a.base.toNat >>> (w - length) := by
  have hshift : w - length = (w - a.length) + ((w - length) - (w - a.length)) := by omega
  rw [contains, beq_iff_eq] at h
  rw [hshift, Nat.shiftRight_add, Nat.shiftRight_add, h]

theorem overlaps_of_contains (ha : a.contains address = true) (hb : b.contains address = true) :
    a.overlaps b = true := by
  rw [overlaps, beq_iff_eq, ← shiftRight_of_contains ha (Nat.min_le_left _ _),
    shiftRight_of_contains hb (Nat.min_le_right _ _)]

theorem contains_of_within (h : a.within b = true) (ha : a.contains address = true) :
    b.contains address = true := by
  rw [within, Bool.and_eq_true, decide_eq_true_iff] at h
  obtain ⟨hl, ho⟩ := h
  rw [overlaps, beq_iff_eq, Nat.min_eq_right hl] at ho
  rw [contains, beq_iff_eq, shiftRight_of_contains ha hl, ho]

end IPNetwork

theorem anyContains_eq_false {w : ℕ} {network : IPNetwork w} {networks : List (IPNetwork w)}
    {address : BitVec w} (hd : networks.all (!·.overlaps network) = true)
    (h : network.contains address = true) : anyContains networks address = false := by
  rw [anyContains, List.any_eq_false]
  intro other hmem hc
  have hoverlaps := IPNetwork.overlaps_of_contains hc h
  have hapart := List.all_eq_true.mp hd other hmem
  simp [hoverlaps] at hapart

theorem anyContains_of_within {w : ℕ} {network : IPNetwork w} {networks : List (IPNetwork w)}
    {address : BitVec w} (hd : networks.any network.within = true)
    (h : network.contains address = true) : anyContains networks address = true := by
  obtain ⟨other, hmem, hw⟩ := List.any_eq_true.mp hd
  exact List.any_eq_true.mpr ⟨other, hmem, IPNetwork.contains_of_within hw h⟩

/-! ### The classes of an address -/

namespace IPv4Address
variable {address : IPv4Address}

theorem isPrivate_of_within {network : IPNetwork 32} (h : network.contains address = true)
    (hw : privateNetworks.any network.within = true)
    (hd : privateNetworksExceptions.all (!·.overlaps network) = true) : isPrivate address = true := by
  rw [isPrivate, anyContains_of_within hw h, anyContains_eq_false hd h]
  rfl

theorem isPrivate_of_isUnspecified (h : isUnspecified address = true) :
    isPrivate address = true := by
  rw [isUnspecified, beq_iff_eq] at h
  rw [h]
  decide

theorem isPrivate_of_isLoopback (h : isLoopback address = true) : isPrivate address = true :=
  isPrivate_of_within h (by decide) (by decide)

theorem isPrivate_of_isLinkLocal (h : isLinkLocal address = true) : isPrivate address = true :=
  isPrivate_of_within h (by decide) (by decide)

theorem isPrivate_of_isReserved (h : isReserved address = true) : isPrivate address = true :=
  isPrivate_of_within h (by decide) (by decide)

theorem isPrivate_of_shared (h : publicNetwork.contains address = true) :
    isPrivate address = false := by
  rw [isPrivate, anyContains_eq_false (by decide) h]
  rfl

theorem isMulticast_of_shared (h : publicNetwork.contains address = true) :
    isMulticast address = false := by
  cases hm : isMulticast address with
  | false => rfl
  | true => exact absurd (IPNetwork.overlaps_of_contains h hm) (by decide)

end IPv4Address

namespace IPv6Address
variable {address : IPv6Address}

theorem isPrivate_of_within {network : IPNetwork 128} (hm : address.ipv4Mapped = none)
    (h : network.contains address.ip = true) (hw : privateNetworks.any network.within = true)
    (hd : privateNetworksExceptions.all (!·.overlaps network) = true) :
    address.isPrivate = true := by
  rw [isPrivate, hm]
  simp only
  rw [anyContains_of_within hw h, anyContains_eq_false hd h]
  rfl

theorem isPrivate_of_isUnspecified (h : address.isUnspecified = true) :
    address.isPrivate = true := by
  cases hm : address.ipv4Mapped with
  | some mapped =>
    rw [isUnspecified, hm] at h
    rw [isPrivate, hm]
    exact IPv4Address.isPrivate_of_isUnspecified h
  | none =>
    rw [isUnspecified, hm] at h
    rw [isPrivate, hm, beq_iff_eq.mp h]
    decide

theorem isPrivate_of_isLoopback (h : address.isLoopback = true) : address.isPrivate = true := by
  cases hm : address.ipv4Mapped with
  | some mapped =>
    rw [isLoopback, hm] at h
    rw [isPrivate, hm]
    exact IPv4Address.isPrivate_of_isLoopback h
  | none =>
    rw [isLoopback, hm] at h
    rw [isPrivate, hm, beq_iff_eq.mp h]
    decide

theorem isPrivate_of_isLinkLocal (h : address.isLinkLocal = true) : address.isPrivate = true := by
  cases hm : address.ipv4Mapped with
  | some mapped =>
    rw [isLinkLocal, hm] at h
    rw [isPrivate, hm]
    exact IPv4Address.isPrivate_of_isLinkLocal h
  | none =>
    rw [isLinkLocal, hm] at h
    exact isPrivate_of_within hm h (by decide) (by decide)

end IPv6Address

namespace IPAddress
variable {address : IPAddress}

theorem isPrivate_of_isUnspecified (h : address.isUnspecified = true) :
    address.isPrivate = true := by
  cases address with
  | v4 address => exact IPv4Address.isPrivate_of_isUnspecified h
  | v6 address => exact IPv6Address.isPrivate_of_isUnspecified h

theorem isPrivate_of_isLoopback (h : address.isLoopback = true) : address.isPrivate = true := by
  cases address with
  | v4 address => exact IPv4Address.isPrivate_of_isLoopback h
  | v6 address => exact IPv6Address.isPrivate_of_isLoopback h

theorem isPrivate_of_isLinkLocal (h : address.isLinkLocal = true) : address.isPrivate = true := by
  cases address with
  | v4 address => exact IPv4Address.isPrivate_of_isLinkLocal h
  | v6 address => exact IPv6Address.isPrivate_of_isLinkLocal h

theorem isGlobal_eq (address : IPAddress) :
    address.isGlobal = (!address.isShared && !address.isPrivate) := by
  cases address with
  | v4 address => rfl
  | v6 address =>
    cases hm : address.ipv4Mapped with
    | some mapped => simp [isGlobal, isShared, isPrivate, IPv6Address.isGlobal,
        IPv6Address.isPrivate, hm, IPv4Address.isGlobal]
    | none => simp [isGlobal, isShared, isPrivate, IPv6Address.isGlobal, hm]

theorem classes_of_isShared (h : address.isShared = true) :
    address.isPrivate = false ∧ address.isMulticast = false ∧ address.isReserved = false := by
  have hmapped : ∀ mapped : IPv4Address, IPv4Address.publicNetwork.contains mapped = true →
      mapped.isPrivate = false ∧ mapped.isMulticast = false ∧ mapped.isReserved = false := by
    intro mapped hshared
    have hp := IPv4Address.isPrivate_of_shared hshared
    refine ⟨hp, IPv4Address.isMulticast_of_shared hshared, ?_⟩
    cases hr : mapped.isReserved with
    | false => rfl
    | true => exact absurd (IPv4Address.isPrivate_of_isReserved hr) (by simp [hp])
  cases address with
  | v4 address => exact hmapped address h
  | v6 address =>
    cases hm : address.ipv4Mapped with
    | some mapped =>
      simp only [isShared, hm, Option.any_some] at h
      simpa [isPrivate, isMulticast, isReserved, IPv6Address.isPrivate,
        IPv6Address.isMulticast, IPv6Address.isReserved, hm] using hmapped mapped h
    | none => simp [isShared, hm] at h

end IPAddress

/-! ### The two filters -/

/-- `_blocked_reason` admits what is global and neither multicast nor reserved, and what is
shared. -/
theorem blockedReason_eq_none_iff (address : IPAddress) : blockedReason address = none ↔
      address.isGlobal = true ∧ address.isMulticast = false ∧ address.isReserved = false ∨
        address.isShared = true := by
  rw [IPAddress.isGlobal_eq]
  constructor
  · intro h
    simp only [blockedReason] at h
    split_ifs at h with hu hl hll hm hp hr
    cases hs : address.isShared with
    | true => exact .inr rfl
    | false => simp_all
  · intro h
    have hclasses : address.isPrivate = false ∧ address.isMulticast = false ∧
        address.isReserved = false := by
      rcases h with ⟨hg, hm, hr⟩ | hs
      · simp only [Bool.and_eq_true, Bool.not_eq_true'] at hg
        exact ⟨hg.2, hm, hr⟩
      · exact IPAddress.classes_of_isShared hs
    obtain ⟨hp, hm, hr⟩ := hclasses
    have hu : ¬ address.isUnspecified = true := fun hu => by
      simp [IPAddress.isPrivate_of_isUnspecified hu] at hp
    have hl : ¬ address.isLoopback = true := fun hl => by
      simp [IPAddress.isPrivate_of_isLoopback hl] at hp
    have hll : ¬ address.isLinkLocal = true := fun hll => by
      simp [IPAddress.isPrivate_of_isLinkLocal hll] at hp
    simp [blockedReason, hu, hl, hll, hm, hp, hr]

theorem blockedAddressReason_eq_none_iff (address : IPAddress) :
    blockedAddressReason address = none ↔
      blockedReason address = none ∧ address.isGlobal = true := by
  simp only [blockedAddressReason, blockedReason]
  split_ifs <;> simp_all

theorem filters_agree_iff (address : IPAddress) :
    (blockedReason address = none ↔ blockedAddressReason address = none) ↔
      address.isShared = false := by
  rw [blockedAddressReason_eq_none_iff, blockedReason_eq_none_iff, IPAddress.isGlobal_eq]
  cases hs : address.isShared with
  | false => simpa using fun hp _ _ => hp
  | true => simp

/-! ### The gates -/

inductive Call where
  | mcp (url : String) (hasAuthorizationToken : Bool) (label : String)
  | outboundFetch (url : String)
  | providerApiBase (url : String)
  | federation (url : String) (allowPrivateHosts : Bool)
  | retrieval (value : String ⊕ CanonicalWebURL) (permits : Option (CanonicalHost → Bool))
      (resolver : Option (String → ℕ → List IPAddress)) (timesOut allowPrivate : Bool)

namespace Call
variable (platform : Platform) (settings : Settings)

def Accepts : Call → Prop
  | mcp url token label => validateMcpUrl platform settings url token label = .ok ()
  | outboundFetch url => validateOutboundFetchUrl platform settings url = .ok ()
  | providerApiBase url => validateProviderApiBase platform settings url = .ok ()
  | federation url allowPrivateHosts =>
    validateFederationUrl platform url allowPrivateHosts = .ok ()
  | retrieval value permits resolver timesOut allowPrivate =>
    ∃ target, validateRetrievalTarget platform value permits resolver timesOut allowPrivate =
      .ok target

def Checked : Call → Prop
  | mcp _ _ _ => settings.mcpAllowPrivateHosts = false
  | outboundFetch _ => settings.webSearchAllowPrivateHosts = false
  | providerApiBase _ => settings.providerAllowPrivateHosts = false
  | federation _ allowPrivateHosts => allowPrivateHosts = false
  | retrieval _ _ _ _ allowPrivate => allowPrivate = false

def AllowsLoopback : Call → Prop
  | mcp _ _ _ => settings.mcpAllowLoopback = true
  | _ => False

/-- The addresses of the host a URL names, literal or resolved. -/
def urlAddresses (url : String) : List IPAddress :=
  match (platform.urlparse url).bind (·.hostname) with
  | some host => addressesOf platform host
  | none => []

def addresses : Call → List IPAddress
  | mcp url _ _ => urlAddresses platform url
  | outboundFetch url => urlAddresses platform url
  | providerApiBase url => urlAddresses platform url
  | federation url _ => urlAddresses platform url
  | retrieval value _ resolver _ _ =>
    match canonicalTarget platform value with
    | .error _ => []
    | .ok canonical =>
      match canonical.host.ip with
      | some literal => [literal]
      | none => resolveWith platform resolver canonical.host.value canonical.port

/-- **Safe**: every address of what is accepted is globally reachable and not multicast, or is
loopback where that is allowed. -/
def Safe (call : Call) : Prop :=
  call.Checked settings → call.Accepts platform settings → ∀ address ∈ call.addresses platform,
    address.isGlobal = true ∧ address.isMulticast = false ∨
      call.AllowsLoopback settings ∧ address.isLoopback = true

/-- The URL has a shape that the gate dials: a port it can read, a scheme it speaks, a host. -/
def WellShaped (url : String) (schemes : String → Prop) : Prop :=
  ∃ parsed host, platform.urlparse url = some parsed ∧ parsed.port.isSome = true ∧
    schemes parsed.scheme.toLower ∧ parsed.hostname = some host ∧ host ≠ ""

/-- The call is of a gate of `url_safety`, and well shaped. -/
def Dialled : Call → Prop
  | mcp url token _ => WellShaped platform url fun scheme =>
    scheme = "https" ∨ scheme = "http" ∧ token = false
  | outboundFetch url => WellShaped platform url fun scheme => scheme = "https" ∨ scheme = "http"
  | providerApiBase url => WellShaped platform url fun scheme => scheme = "https" ∨ scheme = "http"
  | federation url _ => WellShaped platform url fun scheme => scheme = "https"
  | retrieval _ _ _ _ _ => False

/-- **Overlooked**: an address is shared, and no other is refused. -/
def Overlooks (call : Call) : Prop :=
  call.Checked settings ∧ call.Dialled platform ∧
    (∃ address ∈ call.addresses platform, address.isShared = true) ∧
    ∀ address ∈ call.addresses platform, blockedReason address = none ∨
      call.AllowsLoopback settings ∧ address.isLoopback = true

end Call

section
variable (platform : Platform) (settings : Settings)

theorem rejectAddresses_ok_iff (label host override : String) (allowLoopback : Bool)
    (addresses : List IPAddress) :
    rejectAddresses label host override allowLoopback addresses = .ok () ↔
      ∀ address ∈ addresses, blockedReason address = none ∨
        allowLoopback = true ∧ address.isLoopback = true := by
  induction addresses with
  | nil => simp [rejectAddresses]
  | cons address addresses ih =>
    rw [rejectAddresses, List.forall_mem_cons]
    by_cases hl : (address.isLoopback && allowLoopback) = true
    · rw [if_pos hl, ih]
      simp only [Bool.and_eq_true] at hl
      simp [hl]
    · rw [if_neg hl]
      cases hb : blockedReason address with
      | none => simp [ih]
      | some reason =>
        simp only [Bool.and_eq_true, not_and] at hl
        simpa using fun ha hloop => absurd ha (hl hloop)

theorem rejectInternalHost_ok_iff (host label override : String) (allowLoopback : Bool) :
    rejectInternalHost platform host label override allowLoopback = .ok () ↔
      addressesOf platform host ≠ [] ∧
        ∀ address ∈ addressesOf platform host, blockedReason address = none ∨
          allowLoopback = true ∧ address.isLoopback = true := by
  have hempty : (platform.ipAddress host = none ∧ resolveAll platform host = []) ↔
      addressesOf platform host = [] := by
    rw [addressesOf]
    cases platform.ipAddress host <;> simp
  rw [rejectInternalHost]
  split_ifs with h
  · simp [hempty.mp h]
  · rw [hempty] at h
    rw [rejectAddresses_ok_iff]
    simp [h]

theorem parseSafeUrl_ok_iff (url label : String) (parsed : ParseResult) :
    parseSafeUrl platform url label = .ok parsed ↔
      platform.urlparse url = some parsed ∧ parsed.port.isSome = true := by
  rw [parseSafeUrl.eq_def]
  cases platform.urlparse url with
  | none => simp
  | some read =>
    obtain ⟨scheme, netloc, hostname, port⟩ := read
    cases port with
    | none =>
      simp only
      split_ifs
      · simpa using fun h => by rw [← h]
      · simpa using fun h => by rw [← h]
    | some port =>
      simp only [Except.ok.injEq, Option.some.injEq]
      exact ⟨fun h => ⟨h, by rw [← h]; rfl⟩, fun h => h.1⟩

theorem requireHost_ok_iff (host : Option String) (label name : String) :
    requireHost host label = .ok name ↔ host = some name ∧ name ≠ "" := by
  cases host with
  | none => simp [requireHost]
  | some host =>
    rw [requireHost]
    split_ifs with h
    · simp [h, eq_comm]
    · simpa using fun he => he ▸ h

theorem throwing_ok_iff {ε α β : Type} {p : Prop} [Decidable p] (e : ε) (rest : α → Except ε β)
    (x : Except ε β) (b : β) :
    (if p then throw e >>= rest else x) = .ok b ↔ ¬ p ∧ x = .ok b := by
  by_cases hp : p
  · rw [if_pos hp]
    exact ⟨(by intro h; cases h), fun h => absurd hp h.1⟩
  · rw [if_neg hp]
    exact ⟨fun h => ⟨hp, h⟩, fun h => h.2⟩

theorem httpHost_bind_ok_iff (url label : String)
    (next : String × Option String → Except UnsafeURLError Unit) :
    (httpHost platform url label >>= next) = .ok () ↔
      ∃ parsed, platform.urlparse url = some parsed ∧ parsed.port.isSome = true ∧
        (parsed.scheme.toLower = "https" ∨ parsed.scheme.toLower = "http") ∧
        next (parsed.scheme.toLower, parsed.hostname) = .ok () := by
  simp only [httpHost, bind_eq_ok, parseSafeUrl_ok_iff, throwing_ok_iff]
  constructor
  · rintro ⟨read, ⟨parsed, ⟨hparsed, hport⟩, hscheme, hread⟩, h⟩
    rw [← Except.ok.inj hread] at h
    exact ⟨parsed, hparsed, hport, by tauto, h⟩
  · rintro ⟨parsed, hparsed, hport, hscheme, h⟩
    exact ⟨_, ⟨parsed, ⟨hparsed, hport⟩, by tauto, rfl⟩, h⟩

theorem shaped_iff (url label override : String) (allowLoopback : Bool) (schemes : String → Prop) :
    (∃ parsed, platform.urlparse url = some parsed ∧ parsed.port.isSome = true ∧
      schemes parsed.scheme.toLower ∧ ∃ host, (parsed.hostname = some host ∧ host ≠ "") ∧
        rejectInternalHost platform host label override allowLoopback = .ok ()) ↔
      Call.WellShaped platform url schemes ∧ Call.urlAddresses platform url ≠ [] ∧
        ∀ address ∈ Call.urlAddresses platform url, blockedReason address = none ∨
          allowLoopback = true ∧ address.isLoopback = true := by
  simp only [rejectInternalHost_ok_iff]
  constructor
  · rintro ⟨parsed, hparsed, hport, hscheme, host, ⟨hhost, hne⟩, h⟩
    have haddresses : Call.urlAddresses platform url = addressesOf platform host := by
      simp [Call.urlAddresses, hparsed, hhost]
    rw [haddresses]
    exact ⟨⟨parsed, host, hparsed, hport, hscheme, hhost, hne⟩, h⟩
  · rintro ⟨⟨parsed, host, hparsed, hport, hscheme, hhost, hne⟩, h⟩
    have haddresses : Call.urlAddresses platform url = addressesOf platform host := by
      simp [Call.urlAddresses, hparsed, hhost]
    rw [haddresses] at h
    exact ⟨parsed, hparsed, hport, hscheme, host, ⟨hhost, hne⟩, h⟩

/-- With the checks on, a gate of `url_safety` accepts what it dials, where the host has addresses
and the filter lets them all through. -/
theorem accepts_iff (call : Call) (hc : call.Checked settings)
    (hr : ∀ value permits resolver timesOut allowPrivate,
      call ≠ .retrieval value permits resolver timesOut allowPrivate) :
    call.Accepts platform settings ↔ call.Dialled platform ∧ call.addresses platform ≠ [] ∧
      ∀ address ∈ call.addresses platform, blockedReason address = none ∨
        call.AllowsLoopback settings ∧ address.isLoopback = true := by
  cases call with
  | mcp url token label =>
    have hc : settings.mcpAllowPrivateHosts = false := hc
    simp only [Call.Accepts, Call.Dialled, Call.addresses, Call.AllowsLoopback]
    rw [← shaped_iff platform url label "OTARI_MCP_ALLOW_PRIVATE_HOSTS", validateMcpUrl,
      httpHost_bind_ok_iff]
    simp only [throwing_ok_iff, bind_eq_ok, requireHost_ok_iff, hc, Bool.false_eq_true, if_false]
    refine exists_congr fun parsed => and_congr_right fun _ => and_congr_right fun _ => ?_
    rw [← and_assoc]
    refine and_congr_left fun _ => ?_
    cases token with
    | true =>
      simp only [and_true, reduceCtorEq, and_false, or_false]
      exact ⟨fun h => h.1.resolve_right h.2, fun h => ⟨.inl h, by rw [h]; decide⟩⟩
    | false => simp
  | outboundFetch url =>
    have hc : settings.webSearchAllowPrivateHosts = false := hc
    have hshaped := shaped_iff platform url "fetch" "OTARI_WEB_SEARCH_ALLOW_PRIVATE_HOSTS" false
      fun scheme => scheme = "https" ∨ scheme = "http"
    simp only [Bool.false_eq_true] at hshaped
    simp only [Call.Accepts, Call.Dialled, Call.addresses, Call.AllowsLoopback]
    rw [← hshaped, validateOutboundFetchUrl, httpHost_bind_ok_iff]
    simp only [bind_eq_ok, requireHost_ok_iff, hc, Bool.false_eq_true, if_false]
  | providerApiBase url =>
    have hc : settings.providerAllowPrivateHosts = false := hc
    have hshaped := shaped_iff platform url "provider api_base"
      "OTARI_PROVIDER_ALLOW_PRIVATE_HOSTS" false fun scheme => scheme = "https" ∨ scheme = "http"
    simp only [Bool.false_eq_true] at hshaped
    simp only [Call.Accepts, Call.Dialled, Call.addresses, Call.AllowsLoopback]
    rw [← hshaped, validateProviderApiBase, hc]
    simp only [Bool.false_eq_true, if_false]
    rw [httpHost_bind_ok_iff]
    simp only [bind_eq_ok, requireHost_ok_iff]
  | federation url allowPrivateHosts =>
    have hc : allowPrivateHosts = false := hc
    have hshaped := shaped_iff platform url "federation" "OTARI_FEDERATION_ALLOW_PRIVATE_HOSTS"
      false fun scheme => scheme = "https"
    simp only [Bool.false_eq_true] at hshaped
    simp only [Call.Accepts, Call.Dialled, Call.addresses, Call.AllowsLoopback]
    rw [← hshaped, validateFederationUrl, hc]
    simp only [bind_eq_ok, parseSafeUrl_ok_iff, throwing_ok_iff, requireHost_ok_iff,
      Bool.false_eq_true, if_false, not_not, and_assoc]
  | retrieval value permits resolver timesOut allowPrivate => exact absurd rfl (hr _ _ _ _ _)

theorem admitAddresses_ok {allowPrivate : Bool} (hp : allowPrivate = false)
    {admitted addresses result : List IPAddress}
    (h : admitAddresses allowPrivate admitted addresses = .ok result) :
    ∀ address ∈ addresses, blockedAddressReason address = none := by
  induction addresses generalizing admitted with
  | nil => simp
  | cons address addresses ih =>
    rw [admitAddresses.eq_def] at h
    cases hb : blockedAddressReason address with
    | some reason => simp [hb, hp] at h
    | none =>
      simp only [hb] at h
      exact List.forall_mem_cons.mpr ⟨hb, ih h⟩

theorem retrieval_accepts (value : String ⊕ CanonicalWebURL)
    (permits : Option (CanonicalHost → Bool)) (resolver : Option (String → ℕ → List IPAddress))
    (timesOut : Bool)
    (h : (Call.retrieval value permits resolver timesOut false).Accepts platform settings) :
    ∀ address ∈ (Call.retrieval value permits resolver timesOut false).addresses platform,
      blockedAddressReason address = none := by
  obtain ⟨target, h⟩ := h
  simp only [validateRetrievalTarget, bind_eq_ok, throwing_ok_iff] at h
  obtain ⟨canonical, hcanonical, -, resolved, hresolved, -, admitted, hadmitted, -⟩ := h
  have haddresses : (Call.retrieval value permits resolver timesOut false).addresses platform =
      resolved := by
    simp only [Call.addresses, hcanonical]
    rw [resolveTarget.eq_def] at hresolved
    cases hip : canonical.host.ip with
    | some literal => simpa [hip] using hresolved
    | none =>
      rw [hip] at hresolved
      by_cases ht : timesOut = true
      · simp [ht] at hresolved
      · simpa [ht] using hresolved
  rw [haddresses]
  exact admitAddresses_ok rfl hadmitted

end

/-- **Outbound address safety**, of every call of a gate and of every address: what is accepted is
safe unless a shared address is overlooked, and the filters agree on what is not shared. -/
theorem outbound_safety_iff (platform : Platform) (settings : Settings) (call : Call)
    (address : IPAddress) : (call.Safe platform settings ↔ ¬ call.Overlooks platform settings) ∧
      (((blockedReason address).isSome = (blockedAddressReason address).isSome) ↔
        address.isShared = false) := by
  refine ⟨⟨?_, ?_⟩, ?_⟩
  · rintro hsafe ⟨hc, hd, ⟨shared, hmem, hs⟩, hall⟩
    have haccepts : call.Accepts platform settings := by
      refine (accepts_iff platform settings call hc ?_).mpr ⟨hd, List.ne_nil_of_mem hmem, hall⟩
      rintro value permits resolver timesOut allowPrivate rfl
      exact hd
    have hprivate := (IPAddress.classes_of_isShared hs).1
    rcases hsafe hc haccepts shared hmem with ⟨hg, -⟩ | ⟨-, hl⟩
    · simp [IPAddress.isGlobal_eq, hs] at hg
    · simp [IPAddress.isPrivate_of_isLoopback hl] at hprivate
  · intro hnot hc haccepts a hmem
    by_cases hr : ∃ value permits resolver timesOut allowPrivate,
        call = .retrieval value permits resolver timesOut allowPrivate
    · obtain ⟨value, permits, resolver, timesOut, allowPrivate, rfl⟩ := hr
      obtain rfl : allowPrivate = false := hc
      have hpass := retrieval_accepts platform settings value permits resolver timesOut haccepts a hmem
      rw [blockedAddressReason_eq_none_iff, blockedReason_eq_none_iff] at hpass
      obtain ⟨⟨hg, hm, -⟩ | hs, hg⟩ := hpass
      · exact .inl ⟨hg, hm⟩
      · simp [IPAddress.isGlobal_eq, hs] at hg
    · obtain ⟨hd, -, hall⟩ := (accepts_iff platform settings call hc
        fun value permits resolver timesOut allowPrivate he => hr ⟨_, _, _, _, _, he⟩).mp haccepts
      rcases hall a hmem with hpass | hloopback
      · rcases (blockedReason_eq_none_iff a).mp hpass with ⟨hg, hm, -⟩ | hs
        · exact .inl ⟨hg, hm⟩
        · exact absurd ⟨hc, hd, ⟨a, hmem, hs⟩, hall⟩ hnot
      · exact .inr hloopback
  · rw [← filters_agree_iff, Bool.eq_iff_iff, Option.isSome_iff_ne_none, Option.isSome_iff_ne_none,
      not_iff_not]

/-- A platform on which a name resolves to one shared address. -/
def carrierPlatform : Platform where
  urlparse url := if url = "https://carrier.example/" then
    some ⟨"https", "carrier.example", some "carrier.example", some none⟩ else none
  ipAddress text := if text = "100.64.0.1" then some (.v4 (ipv4 100 64 0 1)) else none
  compressed _ := "100.64.0.1"
  getaddrinfo host _ := if host = "carrier.example" then some ["100.64.0.1"] else none
  httpxURL _ := none
  copyWith _ _ _ _ := none
  idnaEncode := some

/-- A web search result on a carrier's shared address is fetched. -/
theorem shared_address_accepted : ¬ ∀ (platform : Platform) (settings : Settings) (call : Call),
      call.Safe platform settings := by
  intro h
  have hdialled : (Call.outboundFetch "https://carrier.example/").Dialled carrierPlatform :=
    ⟨⟨"https", "carrier.example", some "carrier.example", some none⟩, "carrier.example", rfl, rfl,
      .inl (by decide +kernel), rfl, by decide⟩
  have haddresses : (Call.outboundFetch "https://carrier.example/").addresses carrierPlatform =
      [.v4 (ipv4 100 64 0 1)] := by decide
  have haccepts : (Call.outboundFetch "https://carrier.example/").Accepts carrierPlatform {} := by
    refine (accepts_iff carrierPlatform {} (.outboundFetch _) rfl (by simp)).mpr
      ⟨hdialled, ?_, ?_⟩
    · simp [haddresses]
    · rw [haddresses]
      simpa using .inl (by decide)
  have hsafe := h carrierPlatform {} (.outboundFetch _) rfl haccepts (.v4 (ipv4 100 64 0 1)) (by simp [haddresses])
  rcases hsafe with ⟨hg, -⟩ | ⟨hl, -⟩
  · exact absurd hg (by decide)
  · exact hl

end Otari.Network

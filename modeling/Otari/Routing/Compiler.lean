import Otari.Support.Json
import Otari.Pricing.Rows

/-!
# Routing — Compiler — a policy compiled into an ordered plan

`services/routing/compiler.py`: which entry of a policy's `select` starts the plan (`selectHead`),
whether a request reaches its router at all (`selectionConsultsRouter`), and the attempts its
candidates resolve to with everything dropped on the way (`resolveCandidates`, `compilePolicy`).

What the compiler is told of the deployment is a `Deployment`: how a selector resolves in the
request's workspace, what its organization key refuses, and which countries a vendor serves.
-/

namespace Otari.Routing
open Documents (Fields)

/-! ### Policies -/

/-- `Threshold`: exactly one comparison. -/
inductive Threshold where
  | gte (value : ℚ)
  | gt (value : ℚ)
  | lte (value : ℚ)
  | lt (value : ℚ)

def Threshold.matches : Threshold → ℚ → Bool
  | .gte value, observed => value ≤ observed
  | .gt value, observed => value < observed
  | .lte value, observed => observed ≤ value
  | .lt value, observed => observed < value

/-- `WhenClause`: one id is a list of one. -/
structure WhenClause where
  budgetUsedPct : Option Threshold := none
  budgetRemainingUsd : Option Threshold := none
  userId : Option (List String) := none
  keyId : Option (List String) := none

def WhenClause.conditions (when' : WhenClause) : List String :=
  (if when'.budgetUsedPct.isSome then ["budget_used_pct"] else [])
    ++ (if when'.budgetRemainingUsd.isSome then ["budget_remaining_usd"] else [])
    ++ (if when'.userId.isSome then ["user_id"] else [])
    ++ (if when'.keyId.isSome then ["key_id"] else [])

/-- `SelectEntry`: exactly one destination, and a condition on a target alone. -/
inductive SelectEntry where
  | target (when' : Option WhenClause) (target : String)
  | default (target : String)
  | router (backend : String) (candidates : List String) (weights : List (String × ℚ))

structure PolicyGuardrail where
  profile : String
  mode : String
  onUnavailable : String
  url : Option String
  validateKwargs : Fields

structure PolicySpec where
  select : List SelectEntry
  onFailure : List String
  guardrails : List PolicyGuardrail

def PolicySpec.defaultTarget (spec : PolicySpec) : String :=
  (spec.select.findSome? fun
    | .default target => some target
    | _ => none).getD ""

def PolicySpec.routerBackend (spec : PolicySpec) : Option String :=
  spec.select.findSome? fun
    | .router backend _ _ => some backend
    | _ => none

def maxCandidates : ℕ := 5

/-! ### What a request brings -/

structure BudgetState where
  usedPct : Option ℚ := none
  remainingUsd : Option ℚ := none

structure Caller where
  userId : Option String := none
  keyId : Option String := none
  budget : BudgetState := {}

structure RouterOrdering where
  selectors : List String
  confidence : ℚ := 0
  rationale : String := ""

structure ResolvedProvider where
  instanceName : String
  provider : String
  model : String
  kwargs : Fields
  aliasName : Option String

/-- The codes `organization_key_refusal` refuses with. -/
inductive RefusalCode where
  | modelNotAllowed
  | modelNotServing
  | modelNotFound

structure Deployment where
  /-- `resolve_provider_selector`, its error as its text. -/
  resolveProviderSelector : String → Except String ResolvedProvider
  organizationKeyRefusal : String → ResolvedProvider → Option RefusalCode
  providerVendor : String → Option String
  providerSupportedCountries : String → Option (List String)

structure CountryGate where
  country : Option String

/-- Whether the instance's vendor lists countries and the request's is not one of them. -/
def CountryGate.refuses (gate : CountryGate) (config : Deployment) (instanceName : String) : Bool :=
  match (config.providerVendor instanceName).bind config.providerSupportedCountries with
  | some allowed => ¬ ∃ country ∈ gate.country, country ∈ allowed
  | none => false

/-! ### Allow-lists -/

/-- `_entry_matches`: one allow-list entry against a canonical `instance:model`. -/
def entryMatches (entry canonical : List Char) : Bool :=
  let (entryInstance, entryRest) := Pricing.partition ':' entry
  let (keyInstance, keyRest) := Pricing.partition ':' canonical
  let entryModel := entryRest.getD []
  let keyModel := keyRest.getD []
  if entryInstance = [] ∨ keyInstance = [] then false
  else if entryInstance ≠ keyInstance then false
  else if entryModel = ['*'] then true
  else if entryModel.getLast? = some '*' then entryModel.dropLast.isPrefixOf keyModel
  else entryModel = keyModel

/-- No list allows every model, an empty one none. -/
def isModelAllowed (allowlist : Option (List String)) (canonical : String) : Bool :=
  match allowlist with
  | none => true
  | some entries => entries.any fun entry => entryMatches entry.toList canonical.toList

/-! ### Plans -/

structure Attempt where
  position : ℕ
  instanceName : String
  provider : String
  model : String
  kwargs : Fields
  displayModel : Option String
  selectionReason : String

/-- `instance:model`. -/
def Attempt.canonical (attempt : Attempt) : String := attempt.instanceName ++ ":" ++ attempt.model

def ResolvedProvider.canonical (resolved : ResolvedProvider) : String :=
  resolved.instanceName ++ ":" ++ resolved.model

structure DroppedCandidate where
  selector : String
  reason : String
  detail : String

structure CompiledPlan where
  policyName : String
  attempts : List Attempt
  guardrails : List PolicyGuardrail
  dropped : List DroppedCandidate
  routerOrdering : Option RouterOrdering

structure NoEligibleCandidatesError where
  policyName : String
  dropped : List DroppedCandidate

def NoEligibleCandidatesError.statusCode (error : NoEligibleCandidatesError) : ℕ :=
  if error.dropped ≠ [] ∧ ∀ item ∈ error.dropped, item.reason = "unresolvable" then 502 else 403

/-! ### Which entry starts the plan -/

/-- An id that is there and among those named. -/
def named (id : Option String) (names : List String) : Bool := id.any (· ∈ names)

/-- `_matches`: every condition present holds, and an undefined value never does. -/
def conditionsHold (when' : WhenClause) (caller : Caller) : Bool :=
  (when'.budgetUsedPct.all fun threshold => caller.budget.usedPct.any threshold.matches)
    && (when'.budgetRemainingUsd.all fun threshold =>
      caller.budget.remainingUsd.any threshold.matches)
    && when'.userId.all (named caller.userId)
    && when'.keyId.all (named caller.keyId)

/-- The loop of `selection_consults_router`. -/
def reachesRouter (caller : Caller) : List SelectEntry → Bool
  | [] => false
  | .default _ :: _ => false
  | .router _ _ _ :: _ => true
  | .target (some when') _ :: rest =>
    if conditionsHold when' caller then false else reachesRouter caller rest
  | .target none _ :: rest => reachesRouter caller rest

/-- `selection_consults_router`. -/
def selectionConsultsRouter (spec : PolicySpec) (caller : Caller) : Bool :=
  reachesRouter caller spec.select

/-- A selector of the plan, and the reason it is there. -/
abbrev Selected := String × String

/-- The ordering a router entry is given: none is also an ordering of nothing. -/
def ordered (routerOrdering : Option RouterOrdering) : List String :=
  (routerOrdering.map (·.selectors)).getD []

/-- The loop of `_select_head`. -/
def selectFrom (fallthrough : String) (caller : Caller) (routerOrdering : Option RouterOrdering) :
    List SelectEntry → List Selected
  | [] => [(fallthrough, "default")]
  | .default target :: _ => [(target, "default")]
  | .router backend _ _ :: rest =>
    if ordered routerOrdering ≠ [] then
      (ordered routerOrdering).map fun selector => (selector, "router:" ++ backend)
    else selectFrom fallthrough caller routerOrdering rest
  | .target (some when') target :: rest =>
    if conditionsHold when' caller then
      [(target, "condition:" ++ String.intercalate "," when'.conditions)]
    else selectFrom fallthrough caller routerOrdering rest
  | .target none _ :: rest => selectFrom fallthrough caller routerOrdering rest

/-- `_select_head`. -/
def selectHead (spec : PolicySpec) (caller : Caller) (routerOrdering : Option RouterOrdering) :
    List Selected :=
  selectFrom spec.defaultTarget caller routerOrdering spec.select

/-! ### From candidates to attempts -/

structure Filters where
  config : Deployment
  allowlist : Option (List String)
  countryGate : Option CountryGate
  displayModel : String
  candidateLimit : ℕ := maxCandidates

/-- `_ORG_REFUSAL_FRAGMENTS`. -/
def orgRefusalFragment : RefusalCode → String
  | .modelNotAllowed => "is not in this workspace's organization-key model allow-list"
  | .modelNotServing => "is offered by the organization's provider key but not serving"
  | .modelNotFound => "is not offered by the organization's provider key"

def countryFragment (gate : CountryGate) : String :=
  let origin := match gate.country with
    | some country => "country '" ++ country ++ "'"
    | none => "an unknown country"
  "is on a provider provider_supported_countries closes to " ++ origin

/-- What the loop has made of the candidates so far. -/
structure Resolution where
  attempts : List Attempt := []
  dropped : List DroppedCandidate := []
  seen : List String := []

def Resolution.drop (state : Resolution) (selector reason detail : String) : Resolution :=
  { state with dropped := state.dropped ++ [⟨selector, reason, detail⟩] }

def ResolvedProvider.attempt (resolved : ResolvedProvider) (position : ℕ)
    (displayModel selectionReason : String) : Attempt where
  position := position
  instanceName := resolved.instanceName
  provider := resolved.provider
  model := resolved.model
  kwargs := resolved.kwargs
  displayModel := some displayModel
  selectionReason := selectionReason

def Resolution.attempt (state : Resolution) (displayModel selectionReason : String)
    (resolved : ResolvedProvider) : Resolution :=
  { state with
    seen := resolved.canonical :: state.seen
    attempts := state.attempts ++
      [resolved.attempt (state.attempts.length + 1) displayModel selectionReason] }

/-- The access rules on a resolved candidate, as the fragment that drops it. -/
def refusal (filters : Filters) (selector : String) (resolved : ResolvedProvider) :
    Option (String × String) :=
  if !isModelAllowed filters.allowlist resolved.canonical then
    some ("not_allowed", "is not in allowed_models for this caller")
  else
    match filters.config.organizationKeyRefusal selector resolved with
    | some code => some ("not_allowed", orgRefusalFragment code)
    | none =>
      match filters.countryGate with
      | some gate =>
        if gate.refuses filters.config resolved.instanceName then
          some ("country_not_supported", countryFragment gate)
        else none
      | none => none

/-- One turn of the loop of `_resolve_candidates`. -/
def resolveCandidate (filters : Filters) (state : Resolution) (candidate : Selected) : Resolution :=
  let (selector, selectionReason) := candidate
  if filters.candidateLimit ≤ state.attempts.length then
    state.drop selector "over_cap"
      ("exceeds the " ++ toString filters.candidateLimit ++ "-candidate cap")
  else
    match filters.config.resolveProviderSelector selector with
    | .error text =>
      state.drop selector "unresolvable" ("could not be resolved to a provider (" ++ text ++ ")")
    | .ok resolved =>
      if resolved.canonical ∈ state.seen then
        state.drop selector "duplicate" "already in the plan at an earlier position"
      else
        match refusal filters selector resolved with
        | some (reason, detail) => state.drop selector reason detail
        | none => state.attempt filters.displayModel selectionReason resolved

/-- `_resolve_candidates`. -/
def resolveCandidates (filters : Filters) (candidates : List Selected) : Resolution :=
  candidates.foldl (resolveCandidate filters) {}

/-- The selected candidates, and the failure chain after them. -/
def candidatesOf (spec : PolicySpec) (selected : List Selected) : List Selected :=
  selected ++ spec.onFailure.map fun selector => (selector, "on_failure")

def isRouted (selected : List Selected) : Bool :=
  (selected.head?.map fun head => "router:".toList.isPrefixOf head.2.toList).getD false

/-- `compile_policy`. -/
def compilePolicy (config : Deployment) (policyName : String) (spec : PolicySpec) (caller : Caller)
    (allowlist : Option (List String)) (routerOrdering : Option RouterOrdering)
    (countryGate : Option CountryGate) : Except NoEligibleCandidatesError CompiledPlan :=
  let selected := selectHead spec caller routerOrdering
  let resolution := resolveCandidates
    { config := config, allowlist := allowlist, countryGate := countryGate,
      displayModel := policyName } (candidatesOf spec selected)
  if resolution.attempts = [] then .error ⟨policyName, resolution.dropped⟩
  else .ok {
    policyName := policyName
    attempts := resolution.attempts
    guardrails := spec.guardrails
    dropped := resolution.dropped
    routerOrdering := if isRouted selected then routerOrdering else none }

end Otari.Routing

import Otari.Network.DomainPolicy
import Otari.Pricing.PriceRates

/-!
# Access — WebAccess — a workspace's policy on the web access of a request

`services/tools/_web_access.py`: how a workspace's policy narrows a search declaration and the hosts
a fetch may reach.  `_canonicalize_request_domains` is from `_web_admission.py`, and the policy and
the count a search runs with from `_web_build.py`.
-/

namespace Otari.Access
open Documents (Json Fields)
open Network
open PriceRates (truthy)

/-! ### Policies and declarations -/

/-- A workspace's policy; its lists are `none` where it has none. -/
structure ResolvedWebSearchConfig where
  enabled : Bool
  maxResults : Option ℤ := none
  purposeHint : Option String := none
  allowedDomains : Option (List String) := none
  blockedDomains : Option (List String) := none
  providerOptions : Option Fields := none
  authorizedTools : Option (List String) := none

/-- A search declaration, admitted; `maxResults` is the integer it names, if it names one. -/
structure WebSearchEntry where
  maxResults : Option ℤ := none
  allowedDomains : Option (List String) := none
  blockedDomains : Option (List String) := none
  purposeHint : Option Json := none
  providerOptions : Option Json := none

structure WebFetchEntry where
  allowedDomains : Option (List String) := none
  blockedDomains : Option (List String) := none

inductive WebTool where
  | webSearch
  | webFetch
deriving DecidableEq

def WebTool.value : WebTool → String
  | webSearch => "web_search"
  | webFetch => "web_fetch"

/-- Why a request is refused; a rule that is not one is an error of its own. -/
inductive WebAccessError where
  | webAccessNotEnabled
  | webSearchNotEnabled
  | webAccessToolNotAuthorized
  | workspaceWebSearchDomainsExcluded
  | domainRuleValidation (message : String)

structure WebAccessGrant where
  searchToolEntry : Option WebSearchEntry
  fetchPolicy : DomainPolicy

section
variable (platform : Platform)

/-- `_canonicalize_request_domains`, of one field. -/
def canonicalizeRequestDomains : Option Json → Except DomainListError (Option (List String))
  | none => .ok none
  | some .null => .ok none
  | some values => (readDomainList platform values).map fun hosts => some (hosts.getD [])

def canonicalizedRules (values : List String) : Except WebAccessError (List CanonicalHost) :=
  (canonicalizeDomainRules platform values).mapError .domainRuleValidation

/-! ### The hosts of a fetch -/

/-- `workspace_domain_policy`. -/
def workspaceDomainPolicy : Option ResolvedWebSearchConfig → Except WebAccessError DomainPolicy
  | none => .ok {}
  | some policy => do
    let allowed ← canonicalizedRules platform (policy.allowedDomains.getD [])
    let blocked ← canonicalizedRules platform (policy.blockedDomains.getD [])
    return ⟨allowed, blocked⟩

/-- `_declared_rules`, of the list a declaration has under the field. -/
def declaredRules (values : Option (List String)) :
    Except WebAccessError (Option (List CanonicalHost)) :=
  if values.getD [] = [] then .ok none
  else (canonicalizedRules platform (values.getD [])).map some

/-- The fetch declaration's allow list, or else the search declaration's. -/
def requestAllowed (searchToolEntry : Option WebSearchEntry)
    (fetchToolEntry : Option WebFetchEntry) : Except WebAccessError (Option (List CanonicalHost)) := do
  let declared ← declaredRules platform (fetchToolEntry.bind (·.allowedDomains))
  if declared.getD [] = [] then declaredRules platform (searchToolEntry.bind (·.allowedDomains))
  else return declared

/-- `_fetch_policy`. -/
def fetchPolicy (workspaceDomains : DomainPolicy) (searchToolEntry : Option WebSearchEntry)
    (fetchToolEntry : Option WebFetchEntry) : Except WebAccessError DomainPolicy := do
  let requestAllowed ← requestAllowed platform searchToolEntry fetchToolEntry
  let searchBlocked ← declaredRules platform (searchToolEntry.bind (·.blockedDomains))
  let fetchBlocked ← declaredRules platform (fetchToolEntry.bind (·.blockedDomains))
  let requestBlocked := unionDomainBlockLists searchBlocked fetchBlocked
  match intersectDomainAllowLists (orNone workspaceDomains.allowed) requestAllowed with
  | none => .error .workspaceWebSearchDomainsExcluded
  | some allowed =>
    return ⟨allowed.getD [],
      unionDomainBlockLists (orNone workspaceDomains.blocked) (some requestBlocked)⟩

/-! ### The search declaration -/

/-- `_entry_domains`. -/
def entryDomains (values : Option (List String)) : Option (List String) :=
  orNone (((values.getD []).filter fun host => strip host.toList ≠ []).map fun host =>
    (String.ofList (strip host.toList)).toLower)

/-- `_union`. -/
def unionDomains (requested : Option (List String)) (workspace : List String) : List String :=
  Distinct.firsts id (requested.getD [] ++ workspace)

/-- `_canonical_rules`: each entry that is a rule, once. -/
def canonicalRules (values : List String) : List (String × CanonicalHost) :=
  (Distinct.firsts id values).filterMap fun value =>
    (canonicalizeDomainRule platform value).toOption.map fun rule => (value, rule)

/-- The narrower of two entries, one of which covers the other. -/
def narrowerEntry (requested workspace : String × CanonicalHost) :
    Option (String × CanonicalHost) :=
  if domainRuleMatches workspace.2 requested.2 then some requested
  else if domainRuleMatches requested.2 workspace.2 then some workspace
  else none

/-- `_intersect`. -/
def intersectDomains (requested workspace : List String) : List String :=
  let workspaceRules := canonicalRules platform workspace
  Distinct.firsts id (((canonicalRules platform requested).flatMap fun entry =>
    workspaceRules.filterMap (narrowerEntry entry)).map Prod.fst)

/-- The count a request names, or what it would get without one. -/
def requestedMaxResults (baselineMaxResults : ℤ) : Option ℤ → ℤ
  | some requested => if requested ≤ 0 then baselineMaxResults else requested
  | none => baselineMaxResults

/-- The allow list of a narrowed declaration; `none` is
`WorkspaceWebSearchDomainsExcludedError`. -/
def narrowedAllowed (toolEntry : WebSearchEntry) (config : ResolvedWebSearchConfig) :
    Option (Option (List String)) :=
  match config.allowedDomains.getD [] with
  | [] => some toolEntry.allowedDomains
  | workspace =>
    match entryDomains toolEntry.allowedDomains with
    | none => some (some workspace)
    | some requested =>
      match intersectDomains platform requested workspace with
      | [] => none
      | both => some (some both)

/-- `narrow_web_search_tool_entry`. -/
def narrowWebSearchToolEntry (toolEntry : WebSearchEntry) (config : ResolvedWebSearchConfig)
    (baselineMaxResults : ℤ) : Option WebSearchEntry := do
  let allowedDomains ← narrowedAllowed platform toolEntry config
  return {
    maxResults := match config.maxResults with
      | some ceiling => some (min (requestedMaxResults baselineMaxResults toolEntry.maxResults) ceiling)
      | none => toolEntry.maxResults
    allowedDomains := allowedDomains
    blockedDomains :=
      if config.blockedDomains.getD [] = [] then toolEntry.blockedDomains
      else some (unionDomains (entryDomains toolEntry.blockedDomains)
        (config.blockedDomains.getD []))
    purposeHint :=
      if !(toolEntry.purposeHint.any truthy) && config.purposeHint.any (· ≠ "") then
        config.purposeHint.map .str
      else
        toolEntry.purposeHint
    providerOptions := match orNone (config.providerOptions.getD []), toolEntry.providerOptions with
      | some options, some (.obj requested) => some (.obj (Documents.update options requested))
      | some options, _ => some (.obj options)
      | none, requested => requested }

/-- The policy the search backend is built with. -/
def searchPolicy (searchToolEntry : WebSearchEntry) : Except WebAccessError DomainPolicy := do
  let allowed ← canonicalizedRules platform (searchToolEntry.allowedDomains.getD [])
  let blocked ← canonicalizedRules platform (searchToolEntry.blockedDomains.getD [])
  return ⟨allowed, blocked⟩

/-- `_max_results`. -/
def maxResults (baselineMaxResults : ℤ) (entry : WebSearchEntry) (resolved : Option ℤ) : ℤ :=
  match resolved with
  | some resolved => min (requestedMaxResults baselineMaxResults entry.maxResults) resolved
  | none => requestedMaxResults baselineMaxResults entry.maxResults

/-! ### The grant -/

/-- What a policy refuses before any list is read. -/
def vetoed (requestedTools : List WebTool) (policy : ResolvedWebSearchConfig) :
    Option WebAccessError :=
  if !policy.enabled then
    some (if .webFetch ∈ requestedTools then .webAccessNotEnabled else .webSearchNotEnabled)
  else if policy.authorizedTools.any fun authorized =>
      !requestedTools.all fun tool => authorized.contains tool.value then
    some .webAccessToolNotAuthorized
  else
    none

/-- `apply_web_access_policy`. -/
def applyWebAccessPolicy (policy : Option ResolvedWebSearchConfig) (requestedTools : List WebTool)
    (searchToolEntry : Option WebSearchEntry) (fetchToolEntry : Option WebFetchEntry)
    (baselineMaxResults : ℤ) : Except WebAccessError WebAccessGrant := do
  let workspaceDomains ← workspaceDomainPolicy platform policy
  match policy.bind (vetoed requestedTools) with
  | some refusal => .error refusal
  | none =>
    let fetch ← fetchPolicy platform workspaceDomains
      (if .webFetch ∈ requestedTools then searchToolEntry else none) fetchToolEntry
    match policy, searchToolEntry with
    | some policy, some entry =>
      match narrowWebSearchToolEntry platform entry policy baselineMaxResults with
      | some narrowed => return ⟨some narrowed, fetch⟩
      | none => .error .workspaceWebSearchDomainsExcluded
    | _, _ => return ⟨searchToolEntry, fetch⟩

end

end Otari.Access

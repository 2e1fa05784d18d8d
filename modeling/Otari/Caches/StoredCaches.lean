import Otari.Support.Dicts
import Otari.Support.Json
import Otari.Support.Refreshing
import Otari.Support.Select

/-!
# Caches — StoredCaches — what a worker holds of the stored rows, and its lookups

The process-wide caches of `services/alias_service.py`, `services/policy_store.py`,
`services/tenancy/org_provider_key_service.py` and `services/providers/_workspace_hosted_access.py`.
Each refresh reads its tables one statement after another, so its rows may be of several committed
states: what it makes of them is a function of the database each read saw.  A write's refresh reads on
the request's session, where a row the session holds comes as it was loaded (`asHeld`).

Of a row there are the columns a refresh reads.  Ids are compared only.  `PolicySpec.model_validate` is
`validate`, `none` where it raises, and `decrypt_secret` is `decrypt`, `none` where the key cannot be
decrypted.
-/

namespace Otari.Caches
open Documents (Json)

abbrev WorkspaceId := ℕ
abbrev OrganizationId := ℕ
abbrev KeyId := ℕ

/-! ### Rows -/

/-- A row of `model_aliases`, whose value is its target, or of `routing_policies`, whose value is its
spec. -/
structure ScopedRow (V : Type) where
  id : ℕ
  workspaceId : WorkspaceId
  userId : Option String
  name : String
  value : V

structure Workspace where
  id : WorkspaceId
  organizationId : OrganizationId
  name : String
  createdAt : ℤ

structure Organization where
  id : OrganizationId
  slug : String

structure OrgProviderKey where
  id : KeyId
  organizationId : OrganizationId
  provider : String
  name : String
  slug : Option String
  apiBase : Option String
  clientArgs : List (String × Json)
  encryptedApiKey : Option String
  archivedAt : Option ℤ
  isOrgDefault : Bool
  zeroDataRetention : Bool
  createdAt : ℤ

structure WorkspaceProviderKeyOverride where
  id : ℕ
  workspaceId : WorkspaceId
  orgProviderKeyId : KeyId
  isDefault : Bool
  disabled : Bool

structure WorkspaceProviderModelRestriction where
  id : ℕ
  workspaceId : WorkspaceId
  orgProviderKeyId : KeyId
  model : String

structure OrgProviderKeyModel where
  orgProviderKeyId : KeyId
  model : String
  enabled : Bool

structure WorkspaceHostedProviderAccess where
  id : ℕ
  workspaceId : WorkspaceId
  provider : String
  enabled : Bool
  models : Option (Finset String)

structure WorkspaceProviderPolicy where
  workspaceId : WorkspaceId
  requireZeroDataRetention : Bool

structure Database (Spec : Type) where
  modelAliases : List (ScopedRow String) := []
  routingPolicies : List (ScopedRow Spec) := []
  organizations : List Organization := []
  workspaces : List Workspace := []
  keys : List OrgProviderKey := []
  overrides : List WorkspaceProviderKeyOverride := []
  restrictions : List WorkspaceProviderModelRestriction := []
  keyModels : List OrgProviderKeyModel := []
  hostedAccess : List WorkspaceHostedProviderAccess := []
  providerPolicies : List WorkspaceProviderPolicy := []

/-- A row as a SELECT of it returns it: the session's own object, where it holds one. -/
def asHeld {R : Type} (id : R → ℕ) (held : List R) (row : R) : R :=
  (held.find? fun own => id own = id row).getD row

section
variable {Spec PolicySpec V : Type}

/-! ### Aliases and policies -/

/-- The reads of an alias or a policy refresh: its rows, and the two of `lookup_default_workspace_id`. -/
inductive NamedRead where
  | rows | named | oldest
deriving DecidableEq

instance : Fintype NamedRead :=
  .ofList [.rows, .named, .oldest] fun i => by cases i <;> simp

/-- What a read returns on a session that holds rows.  Those of the default workspace select an id. -/
def selectNamed (held : Database Spec) (read : NamedRead) (db : Database Spec) : Database Spec :=
  match read with
  | .rows => { db with
      modelAliases := db.modelAliases.map (asHeld (·.id) held.modelAliases)
      routingPolicies := db.routingPolicies.map (asHeld (·.id) held.routingPolicies) }
  | .named | .oldest => db

/-- `DEFAULT_ORGANIZATION_SLUG`. -/
def defaultOrganizationSlug : String := "default"

/-- `DEFAULT_WORKSPACE_NAME`. -/
def defaultWorkspaceName : String := "Default workspace"

/-- The workspace of the default's name in the organization of the default's slug; both are unique. -/
def namedWorkspace (db : Database Spec) : Option WorkspaceId :=
  (db.workspaces.find? fun workspace => workspace.name = defaultWorkspaceName ∧
    db.organizations.any fun organization =>
      organization.id = workspace.organizationId ∧ organization.slug = defaultOrganizationSlug).map (·.id)

def oldestWorkspace (db : Database Spec) : Option WorkspaceId :=
  (Select.orderBy (fun workspace => toLex (workspace.createdAt, workspace.id)) db.workspaces).head?.map
    (·.id)

/-- `lookup_default_workspace_id`. -/
def lookupDefaultWorkspaceId (seen : NamedRead → Database Spec) : Option WorkspaceId :=
  (namedWorkspace (seen .named)).or (oldestWorkspace (seen .oldest))

/-- `_cache`, `_user_cache` and `_default_workspace`. -/
structure NamedCache (V : Type) where
  cache : Dict WorkspaceId (Dict String V) := .empty
  userCache : Dict WorkspaceId (Dict String (Dict String V)) := .empty
  defaultWorkspace : Option WorkspaceId := none

/-- `d.setdefault(k, {})[name] = v`. -/
def putIn {κ κ' : Type} [DecidableEq κ] [DecidableEq κ'] (d : Dict κ (Dict κ' V)) (k : κ) (name : κ')
    (v : V) : Dict κ (Dict κ' V) :=
  d.put k (((d.get k).getD .empty).put name v)

def addRow (fresh : NamedCache V) (row : ScopedRow V) : NamedCache V :=
  match row.userId with
  | none => { fresh with cache := putIn fresh.cache row.workspaceId row.name row.value }
  | some user =>
    let users := putIn ((fresh.userCache.get row.workspaceId).getD .empty) user row.name row.value
    { fresh with userCache := fresh.userCache.put row.workspaceId users }

/-- What a refresh makes of its rows and of the default workspace. -/
def loaded (rows : List (ScopedRow V)) (defaultWorkspace : Option WorkspaceId) : NamedCache V :=
  { rows.foldl addRow {} with defaultWorkspace }

/-- `refresh_alias_cache`. -/
def refreshAliasCache (seen : NamedRead → Database Spec) : NamedCache String :=
  loaded (seen .rows).modelAliases (lookupDefaultWorkspaceId seen)

/-- `_parse`, of a row. -/
def parse (validate : Spec → Option PolicySpec) (row : ScopedRow Spec) : Option (ScopedRow PolicySpec) :=
  (validate row.value).map fun spec => { row with value := spec }

/-- `refresh_policy_cache`. -/
def refreshPolicyCache (validate : Spec → Option PolicySpec) (seen : NamedRead → Database Spec) :
    NamedCache PolicySpec :=
  loaded ((seen .rows).routingPolicies.filterMap (parse validate)) (lookupDefaultWorkspaceId seen)

/-- `d.update(other)`. -/
def update (d other : Dict String V) : Dict String V :=
  other.items.foldl (fun d item => d.put item.1 item.2) d

/-- What is in force for a caller: the stored names of the workspace, the configured ones, and the
user's own. -/
def effective (cache : NamedCache V) (configured : Dict String V) (userId : Option String)
    (workspaceId : Option WorkspaceId) : Dict String V :=
  let scope := workspaceId.or cache.defaultWorkspace
  let stored := (scope.bind cache.cache.get).getD .empty
  let own := scope.bind fun scope => (cache.userCache.get scope).bind fun users =>
    userId.bind users.get
  update (update stored configured) (own.getD .empty)

/-- `effective_aliases`. -/
def effectiveAliases (configured : Dict String String) (cache : NamedCache String)
    (userId : Option String) (workspaceId : Option WorkspaceId) : Dict String String :=
  effective cache configured userId workspaceId

/-- `resolve_effective_alias`. -/
def resolveEffectiveAlias (configured : Dict String String) (cache : NamedCache String) (name : String)
    (userId : Option String) (workspaceId : Option WorkspaceId) : Option String :=
  ((effectiveAliases configured cache userId workspaceId).get name).filter (· ≠ "")

structure RoutingConfig (PolicySpec : Type) where
  enabled : Bool
  policies : Dict String PolicySpec

/-- `effective_policies`. -/
def effectivePolicies (routing : RoutingConfig PolicySpec) (cache : NamedCache PolicySpec)
    (userId : Option String) (workspaceId : Option WorkspaceId) : Dict String PolicySpec :=
  if routing.enabled then effective cache routing.policies userId workspaceId else .empty

/-- `resolve_effective_policy`. -/
def resolveEffectivePolicy (routing : RoutingConfig PolicySpec) (cache : NamedCache PolicySpec)
    (name : String) (userId : Option String) (workspaceId : Option WorkspaceId) : Option PolicySpec :=
  (effectivePolicies routing cache userId workspaceId).get name

/-! ### Organization provider keys -/

inductive KeyRead where
  | workspaces | keys | overrides | restrictions | models
deriving DecidableEq

instance : Fintype KeyRead :=
  .ofList [.workspaces, .keys, .overrides, .restrictions, .models] fun i => by cases i <;> simp

/-- What a read returns on a session that holds rows.  What a key is selected and ordered by is the
database's, and the workspaces and the offered models are selected by column. -/
def selectKeys (held : Database Spec) (read : KeyRead) (db : Database Spec) : Database Spec :=
  match read with
  | .keys => { db with keys := db.keys.map fun key =>
    { asHeld (·.id) held.keys key with archivedAt := key.archivedAt, createdAt := key.createdAt } }
  | .overrides => { db with overrides := db.overrides.map (asHeld (·.id) held.overrides) }
  | .restrictions => { db with restrictions := db.restrictions.map (asHeld (·.id) held.restrictions) }
  | .workspaces | .models => db

/-- What the active key offers, for explaining a refusal. -/
structure KeyOffer where
  keyName : String
  offered : Option (Dict String Bool)

/-- An entry of the overlay, shaped like a `config.providers` value. -/
structure Entry where
  apiBase : Option String
  clientArgs : List (String × Json)
  apiKey : Option String

structure OrgProviderCache where
  orgCache : Dict (WorkspaceId × String) Entry := .empty
  modelRestrictions : Dict (WorkspaceId × String) (List String) := .empty
  keyOffers : Dict (WorkspaceId × String) KeyOffer := .empty
  keyZeroRetention : Dict (WorkspaceId × String) Bool := .empty
  slugProviders : Dict (WorkspaceId × String) String := .empty

def present (text : Option String) : Option String := text.filter (· ≠ "")

def OrgProviderKey.selectorPrefix (key : OrgProviderKey) : String := (present key.slug).getD key.provider

/-- `_row_to_entry`, `none` where it raises. -/
def rowToEntry (decrypt : String → Option String) (key : OrgProviderKey) : Option Entry :=
  match present key.encryptedApiKey with
  | none => some ⟨present key.apiBase, key.clientArgs, none⟩
  | some secret => (decrypt secret).map fun apiKey => ⟨present key.apiBase, key.clientArgs, some apiKey⟩

/-- `resolve_active_key`. -/
def resolveActiveKey (candidates : List (OrgProviderKey × Option WorkspaceProviderKeyOverride)) :
    Option OrgProviderKey :=
  let enabled := candidates.filter fun candidate => !candidate.2.any (·.disabled)
  ((enabled.find? fun candidate => candidate.2.any (·.isDefault)).or
    ((enabled.find? fun candidate => candidate.1.isOrgDefault).or enabled.head?)).map Prod.fst

def liveKeys (db : Database Spec) : List OrgProviderKey :=
  Select.orderBy (fun key => toLex (key.createdAt, key.id))
    (db.keys.filter fun key => key.archivedAt = none)

/-- `override_by_workspace_key.get`. -/
def overrideOf (db : Database Spec) (workspaceId : WorkspaceId) (key : KeyId) :
    Option WorkspaceProviderKeyOverride :=
  (Dict.ofPairs (db.overrides.map fun o => ((o.workspaceId, o.orgProviderKeyId), o))).get
    (workspaceId, key)

/-- `models_by_workspace_key.get`. -/
def restrictedModels (db : Database Spec) (workspaceId : WorkspaceId) (key : KeyId) :
    Option (List String) :=
  let rows := db.restrictions.filter fun row => row.workspaceId = workspaceId ∧ row.orgProviderKeyId = key
  if rows = [] then none else some (rows.map (·.model))

/-- `offered_models_for_keys`, of one key. -/
def offeredModels (db : Database Spec) (key : KeyId) : Option (Dict String Bool) :=
  let rows := Select.orderBy (·.model) (db.keyModels.filter fun row => row.orgProviderKeyId = key)
  if rows = [] then none else some (Dict.ofPairs (rows.map fun row => (row.model, row.enabled)))

/-- What two narrowings leave, where there is one. -/
def narrowed (offered restricted : Option (List String)) : Option (List String) :=
  match offered, restricted with
  | none, restricted => restricted
  | some offered, none => some offered
  | some offered, some restricted =>
    some (Select.orderBy id (Distinct.firsts id (offered.filter (· ∈ restricted))))

/-- The key one workspace uses under one prefix. -/
def activeKey (seen : KeyRead → Database Spec) (workspace : Workspace) (selectorPrefix : String) :
    Option OrgProviderKey :=
  resolveActiveKey
    (((liveKeys (seen .keys)).filter fun key =>
        key.organizationId = workspace.organizationId ∧ key.selectorPrefix = selectorPrefix).map
      fun key => (key, overrideOf (seen .overrides) workspace.id key.id))

/-- One turn of the inner loop of `refresh_org_provider_cache`. -/
def addPrefix (decrypt : String → Option String) (seen : KeyRead → Database Spec)
    (workspace : Workspace) (fresh : OrgProviderCache) (selectorPrefix : String) : OrgProviderCache :=
  match activeKey seen workspace selectorPrefix with
  | none => fresh
  | some active =>
    match rowToEntry decrypt active with
    | none => fresh
    | some entry =>
      let place := (workspace.id, selectorPrefix)
      let fresh := { fresh with
        orgCache := fresh.orgCache.put place entry
        keyZeroRetention := fresh.keyZeroRetention.put place active.zeroDataRetention
        slugProviders := if active.slug.isSome then fresh.slugProviders.put place active.provider
          else fresh.slugProviders }
      let offered := offeredModels (seen .models) active.id
      let enabled := offered.map fun models => (models.items.filter (·.2)).map Prod.fst
      match narrowed enabled (restrictedModels (seen .restrictions) workspace.id active.id) with
      | none => fresh
      | some models => { fresh with
          keyOffers := fresh.keyOffers.put place ⟨active.name, offered⟩
          modelRestrictions := fresh.modelRestrictions.put place models }

/-- `providers_by_org.get`, a set. -/
def prefixesOf (seen : KeyRead → Database Spec) (organizationId : OrganizationId) : List String :=
  Distinct.firsts id
    (((liveKeys (seen .keys)).filter fun key => key.organizationId = organizationId).map
      (·.selectorPrefix))

/-- `refresh_org_provider_cache`. -/
def refreshOrgProviderCache (decrypt : String → Option String) (seen : KeyRead → Database Spec) :
    OrgProviderCache :=
  (seen .workspaces).workspaces.foldl (fun fresh workspace =>
    (prefixesOf seen workspace.organizationId).foldl (addPrefix decrypt seen workspace) fresh) {}

/-- `cached_org_model_restriction`. -/
def cachedOrgModelRestriction (cache : OrgProviderCache) (workspaceId : WorkspaceId)
    (provider : String) : Option (List String) :=
  cache.modelRestrictions.get (workspaceId, provider)

/-! ### Workspace hosted access -/

inductive HostedRead where
  | rules | zeroRetention
deriving DecidableEq

instance : Fintype HostedRead :=
  .ofList [.rules, .zeroRetention] fun i => by cases i <;> simp

/-- What a read returns on a session that holds rows.  The policies' workspaces are selected by column. -/
def selectHosted (held : Database Spec) (read : HostedRead) (db : Database Spec) : Database Spec :=
  match read with
  | .rules => { db with hostedAccess := db.hostedAccess.map (asHeld (·.id) held.hostedAccess) }
  | .zeroRetention => db

/-- One stored departure: the provider switched off, or narrowed to `models`. -/
structure WorkspaceHostedRule where
  enabled : Bool
  models : Option (Finset String)

structure HostedAccessCache where
  rules : Dict WorkspaceId (Dict String WorkspaceHostedRule) := .empty
  zeroRetentionWorkspaces : Finset WorkspaceId := ∅

/-- `refresh_workspace_hosted_access_cache`, but for the numbers. -/
def refreshWorkspaceHostedAccessCache (seen : HostedRead → Database Spec) : HostedAccessCache where
  rules := (seen .rules).hostedAccess.foldl
    (fun rules row => putIn rules row.workspaceId row.provider ⟨row.enabled, row.models⟩) .empty
  zeroRetentionWorkspaces :=
    (((seen .zeroRetention).providerPolicies.filter (·.requireZeroDataRetention)).map
      (·.workspaceId)).toFinset

/-- `workspace_requires_zero_data_retention`. -/
def workspaceRequiresZeroDataRetention (cache : HostedAccessCache) (workspaceId : WorkspaceId) : Bool :=
  workspaceId ∈ cache.zeroRetentionWorkspaces

/-- `cached_workspace_hosted_rule`. -/
def cachedWorkspaceHostedRule (cache : HostedAccessCache) (workspaceId : WorkspaceId)
    (provider : String) : Option WorkspaceHostedRule :=
  (cache.rules.get workspaceId).bind fun rules => rules.get provider

/-- `workspace_may_use_hosted`; which hosted providers are declared zero data retention is asked
elsewhere. -/
def workspaceMayUseHosted (hostedZeroDataRetention : String → Bool) (cache : HostedAccessCache)
    (workspaceId : WorkspaceId) (provider : String) (model : Option String) : Bool :=
  if workspaceRequiresZeroDataRetention cache workspaceId && !hostedZeroDataRetention provider then false
  else
    match cachedWorkspaceHostedRule cache workspaceId provider with
    | none => true
    | some rule => rule.enabled &&
        model.all fun model => rule.models.all fun models => decide (model ∈ models)

end

end Otari.Caches

import Otari.Access.SubsetExact

/-!
# Routing — PricingKeys — one canonical key of a model

`services/provider_kwargs.py`: how a request's selector resolves to an instance and a model
(`resolveProviderSelector`), and the key a model is priced, budgeted and permitted under
(`normalizePricingKey`).

Resolution knows a prefix as a configured instance, an organization key's slug, a hosted provider's
name, an owned endpoint or a provider of any-llm; normalization knows the first and the last.
**A selector that resolves as written is priced under the key it resolves to, in either spelling, if
and only if its prefix is one of these two** (`oneKey_iff`).
-/

namespace Otari.Selectors
open Access (splitSelector)
open Pricing (Key selectorKey partition partition_append)

/-! ### Resolution -/

/-- any-llm: the providers it knows, those that have an `LLMProvider` among them, and its split of a
selector, assumed to be on the first delimiter for the names it knows. -/
structure AnyLLM where
  knows : Key → Bool
  isMember : Key → Bool
  splitModelProvider : Key → Option (Key × Key)
  splitModelProvider_eq : ∀ selector,
    splitModelProvider selector = (splitSelector selector).filter fun split => knows split.1

structure OwnedEndpoint where
  provider : Key
  apiBase : Key
deriving DecidableEq

structure Caller where
  userId : Option Key := none
  workspaceId : Option ℕ := none

/-- What resolution reads: the configuration, the caches, and the arguments of a call. -/
structure Gateway (Kwargs Error : Type) where
  anyLLM : AnyLLM
  providers : List Key
  providerInstanceType : Key → Key
  providerNames : List Key
  providerEndpointsEnabled : Bool
  claimedTarget : Caller → Key → Option Key
  resolveCatalogSelector : Option ℕ → Key → Option Key
  resolveUndatedSelector : Option ℕ → Key → Option Key
  /-- `org_key_slug_provider`. -/
  orgKeySlugProvider : Option ℕ → Key → Option Key
  hostedNames : Key → Option Key
  cachedOwnedEndpoint : Caller → Key → Option OwnedEndpoint
  ownedEndpointKwargs : OwnedEndpoint → Kwargs
  getProviderKwargs : Key → Key → Option ℕ → Except Error Kwargs

/-- `ResolvedProvider`. -/
structure ResolvedProvider (Kwargs : Type) where
  instanceName : Key
  provider : Key
  model : Key
  kwargs : Kwargs
  aliasName : Option Key := none
  ownedEndpoint : Option OwnedEndpoint := none

/-- What resolution raises: a name no provider has, or what building the arguments raised. -/
inductive Unresolved (Error : Type) where
  | unknownProvider
  | kwargs (e : Error)

section
variable {Kwargs Error : Type} (g : Gateway Kwargs Error) (caller : Caller)

/-- `LLMProvider(name)`. -/
def llmProvider (name : Key) : Except (Unresolved Error) Key :=
  if g.anyLLM.isMember name then .ok name else .error .unknownProvider

/-- `_resolve_owned_endpoint`. -/
def resolveOwnedEndpoint (split : Option (Key × Key)) : Option (Key × OwnedEndpoint × Key) :=
  if caller.workspaceId = none ∨ !g.providerEndpointsEnabled then none
  else split.bind fun (name, model) =>
    if name ∈ g.providers ∨ name ∈ g.providerNames then none
    else (g.cachedOwnedEndpoint caller name).map fun endpoint => (name, endpoint, model)

/-- The name a selector stands for: an alias, a catalog spelling or an undated name. -/
def substitution (modelSelector : Key) : Option Key :=
  ((g.claimedTarget caller modelSelector).or
    (g.resolveCatalogSelector caller.workspaceId modelSelector)).or
    ((splitSelector modelSelector).bind fun written =>
      if written.1 ∉ g.providers ∧ (g.hostedNames written.1 = none ∨
          (g.orgKeySlugProvider caller.workspaceId written.1).isSome) then
        g.resolveUndatedSelector caller.workspaceId modelSelector
      else none)

/-- A resolution whose provider and arguments are found. -/
def resolved (instanceName implementation model : Key) (workspaceId : Option ℕ)
    (aliasName : Option Key) : Except (Unresolved Error) (ResolvedProvider Kwargs) := do
  let provider ← llmProvider g implementation
  let kwargs ← (g.getProviderKwargs provider instanceName workspaceId).mapError .kwargs
  return { instanceName, provider, model, kwargs, aliasName }

/-- `resolve_provider_selector`. -/
def resolveProviderSelector (modelSelector : Key) (ownedEndpoints : Bool := false) :
    Except (Unresolved Error) (ResolvedProvider Kwargs) :=
  let target := substitution g caller modelSelector
  let selector := target.getD modelSelector
  let aliasName := target.map fun _ => modelSelector
  let split := splitSelector selector
  match if ownedEndpoints then resolveOwnedEndpoint g caller split else none with
  | some (name, endpoint, model) =>
    (llmProvider g endpoint.provider).map fun provider =>
      { instanceName := name
        provider
        model
        kwargs := g.ownedEndpointKwargs endpoint
        aliasName
        ownedEndpoint := some endpoint }
  | none =>
    match split.filter (·.1 ∈ g.providers) with
    | some (name, model) => resolved g name (g.providerInstanceType name) model none aliasName
    | none =>
      match split.bind fun (name, model) =>
          (g.orgKeySlugProvider caller.workspaceId name).map fun provider => (name, provider, model) with
      | some (name, provider, model) => resolved g name provider model caller.workspaceId aliasName
      | none =>
        match split.bind fun (name, model) =>
            (g.hostedNames name).map fun implementation => (name, implementation, model) with
        | some (name, implementation, model) => resolved g name implementation model none aliasName
        | none =>
          match g.anyLLM.splitModelProvider selector with
          | some (name, model) => resolved g name name model caller.workspaceId aliasName
          | none => .error .unknownProvider

/-- `normalize_pricing_key`. -/
def normalizePricingKey (rawKey : Key) : Key :=
  match (splitSelector rawKey).filter (·.1 ∈ g.providers) with
  | some (name, model) => selectorKey name model
  | none =>
    match g.anyLLM.splitModelProvider rawKey with
    | some (name, model) => selectorKey name model
    | none => rawKey

end

/-! ### One key -/

variable {Kwargs Error : Type} {g : Gateway Kwargs Error} {caller : Caller}

def slashKey (name model : Key) : Key := name ++ '/' :: model

def Known (g : Gateway Kwargs Error) (selector : Key) : Prop :=
  ∃ split, splitSelector selector = some split ∧
    (split.1 ∈ g.providers ∨ g.anyLLM.knows split.1 = true)

/-- **One canonical key** of a selector that resolves as written. -/
structure OneKey (g : Gateway Kwargs Error) (selector : Key) (found : ResolvedProvider Kwargs) :
    Prop where
  resolves : normalizePricingKey g selector = selectorKey found.instanceName found.model
  spellings : normalizePricingKey g (selectorKey found.instanceName found.model) =
    normalizePricingKey g (slashKey found.instanceName found.model)
  idempotent : ∀ key, normalizePricingKey g (normalizePricingKey g key) = normalizePricingKey g key

/-! ### Spellings -/

variable {selector : Key}

theorem plain_of_splitSelector {name model : Key}
    (h : splitSelector selector = some (name, model)) :
    name ≠ [] ∧ model ≠ [] ∧ ∀ c ∈ name, c ≠ ':' ∧ c ≠ '/' := by
  unfold splitSelector at h
  obtain ⟨delimiter, hfind, h⟩ := Option.bind_eq_some_iff.mp h
  obtain ⟨-, before, after, rfl, hbefore⟩ := List.find?_eq_some_iff_append.mp hfind
  have hplain : ∀ c ∈ before, c ≠ ':' ∧ c ≠ '/' := fun c hc => by simpa using hbefore c hc
  have hdelimiter : ∀ c ∈ before, c ≠ delimiter := by
    rintro c hc rfl
    have hp := List.find?_some hfind
    simp [hplain c hc] at hp
  rw [partition_append hdelimiter] at h
  simp only [Option.bind_some] at h
  split at h
  · cases h
  · rename_i hne
    obtain ⟨rfl, rfl⟩ := Prod.mk.inj (Option.some.inj h)
    simp only [Bool.or_eq_true, List.isEmpty_iff, not_or] at hne
    exact ⟨hne.1, hne.2, hplain⟩

theorem splitSelector_append {name model : Key} (hname : name ≠ []) (hmodel : model ≠ [])
    (hplain : ∀ c ∈ name, c ≠ ':' ∧ c ≠ '/') {delimiter : Char}
    (hdelimiter : delimiter = ':' ∨ delimiter = '/') :
    splitSelector (name ++ delimiter :: model) = some (name, model) := by
  have hfind : (name ++ delimiter :: model).find? (fun c => c = ':' ∨ c = '/') = some delimiter := by
    refine List.find?_eq_some_iff_append.mpr ⟨by simpa using hdelimiter, name, model, rfl, ?_⟩
    intro c hc
    simpa using hplain c hc
  have hbefore : ∀ c ∈ name, c ≠ delimiter := by
    rintro c hc rfl
    rcases hdelimiter with h | h
    · exact (hplain c hc).1 h
    · exact (hplain c hc).2 h
  rw [splitSelector, hfind, Option.bind_some, partition_append hbefore]
  simp [hname, hmodel]

theorem normalize_split {key name model : Key} (h : splitSelector key = some (name, model)) :
    normalizePricingKey g key =
      if name ∈ g.providers ∨ g.anyLLM.knows name = true then selectorKey name model else key := by
  rw [normalizePricingKey, g.anyLLM.splitModelProvider_eq, h]
  by_cases hconfigured : name ∈ g.providers
  · simp [Option.filter, hconfigured]
  · cases hknown : g.anyLLM.knows name <;> simp [Option.filter, hconfigured, hknown]

theorem normalize_unsplit {key : Key} (h : splitSelector key = none) :
    normalizePricingKey g key = key := by
  rw [normalizePricingKey, g.anyLLM.splitModelProvider_eq, h]
  rfl

theorem normalize_idempotent (g : Gateway Kwargs Error) (key : Key) :
    normalizePricingKey g (normalizePricingKey g key) = normalizePricingKey g key := by
  cases hsplit : splitSelector key with
  | none => rw [normalize_unsplit hsplit, normalize_unsplit hsplit]
  | some split =>
    obtain ⟨name, model⟩ := split
    obtain ⟨hname, hmodel, hplain⟩ := plain_of_splitSelector hsplit
    rw [normalize_split hsplit]
    split
    · rename_i hknown
      have hagain : splitSelector (selectorKey name model) = some (name, model) :=
        splitSelector_append hname hmodel hplain (.inl rfl)
      rw [normalize_split hagain, if_pos hknown]
    · rename_i hknown
      rw [normalize_split hsplit, if_neg hknown]

/-! ### What a selector resolves to -/

variable {found : ResolvedProvider Kwargs}

theorem resolved_names {name implementation model : Key} {workspaceId : Option ℕ}
    {aliasName : Option Key}
    (h : resolved g name implementation model workspaceId aliasName = .ok found) :
    found.instanceName = name ∧ found.model = model ∧ found.aliasName = aliasName := by
  obtain ⟨provider, -, h⟩ := bind_eq_ok.mp h
  obtain ⟨kwargs, -, h⟩ := bind_eq_ok.mp h
  rw [← Except.ok.inj h]
  exact ⟨rfl, rfl, rfl⟩

/-- **A selector resolves to the parts of the name it stands for**, whichever branch finds them. -/
theorem parts_of_resolves {ownedEndpoints : Bool}
    (h : resolveProviderSelector g caller selector ownedEndpoints = .ok found) :
    splitSelector ((substitution g caller selector).getD selector) =
        some (found.instanceName, found.model) ∧
      found.aliasName = (substitution g caller selector).map fun _ => selector := by
  have hparts : ∀ {split : Option (Key × Key)} {name model implementation : Key}
      {workspaceId : Option ℕ}, split = some (name, model) →
      resolved g name implementation model workspaceId
          ((substitution g caller selector).map fun _ => selector) = .ok found →
      split = some (found.instanceName, found.model) ∧
        found.aliasName = (substitution g caller selector).map fun _ => selector := by
    intro split name model implementation workspaceId hsplit hfound
    obtain ⟨hname, hmodel, haliasName⟩ := resolved_names hfound
    rw [hname, hmodel]
    exact ⟨hsplit, haliasName⟩
  unfold resolveProviderSelector at h
  dsimp only at h
  split at h
  · -- an endpoint of the caller's
    rename_i name endpoint model howned
    cases hprovider : llmProvider g endpoint.provider with
    | error e => rw [hprovider] at h; cases h
    | ok provider =>
      rw [hprovider] at h
      obtain rfl := Except.ok.inj h
      refine ⟨?_, rfl⟩
      cases ownedEndpoints with
      | false => cases howned
      | true =>
        rw [if_pos rfl, resolveOwnedEndpoint] at howned
        split at howned
        · cases howned
        obtain ⟨⟨name', model'⟩, hsplit, hname⟩ := Option.bind_eq_some_iff.mp howned
        dsimp only at hname
        split at hname
        · cases hname
        obtain ⟨endpoint', -, heq⟩ := Option.map_eq_some_iff.mp hname
        cases heq
        exact hsplit
  split at h
  · rename_i name model hconfigured
    exact hparts (Option.filter_eq_some_iff.mp hconfigured).1 h
  split at h
  · rename_i name provider model hslug
    obtain ⟨⟨name', model'⟩, hsplit, hname⟩ := Option.bind_eq_some_iff.mp hslug
    obtain ⟨provider', -, heq⟩ := Option.map_eq_some_iff.mp hname
    cases heq
    exact hparts hsplit h
  split at h
  · rename_i name implementation model hhosted
    obtain ⟨⟨name', model'⟩, hsplit, hname⟩ := Option.bind_eq_some_iff.mp hhosted
    obtain ⟨implementation', -, heq⟩ := Option.map_eq_some_iff.mp hname
    cases heq
    exact hparts hsplit h
  split at h
  · rename_i name model hbare
    rw [g.anyLLM.splitModelProvider_eq] at hbare
    exact hparts (Option.filter_eq_some_iff.mp hbare).1 h
  · cases h

theorem split_of_resolves {ownedEndpoints : Bool}
    (h : resolveProviderSelector g caller selector ownedEndpoints = .ok found)
    (hwritten : found.aliasName = none) :
    splitSelector selector = some (found.instanceName, found.model) := by
  obtain ⟨hsplit, haliasName⟩ := parts_of_resolves h
  rw [hwritten, eq_comm, Option.map_eq_none_iff] at haliasName
  rwa [haliasName, Option.getD_none] at hsplit

/-- **A selector that resolves as written has one canonical key, if and only if normalization knows
its prefix.** -/
theorem oneKey_iff {selector : Key} {ownedEndpoints : Bool} {found : ResolvedProvider Kwargs}
    (h : resolveProviderSelector g caller selector ownedEndpoints = .ok found)
    (hwritten : found.aliasName = none) : OneKey g selector found ↔ Known g selector := by
  have hsplit := split_of_resolves h hwritten
  obtain ⟨hname, hmodel, hplain⟩ := plain_of_splitSelector hsplit
  have hcolon : splitSelector (selectorKey found.instanceName found.model) =
      some (found.instanceName, found.model) :=
    splitSelector_append hname hmodel hplain (.inl rfl)
  have hslash : splitSelector (slashKey found.instanceName found.model) =
      some (found.instanceName, found.model) :=
    splitSelector_append hname hmodel hplain (.inr rfl)
  constructor
  · intro hone
    refine ⟨_, hsplit, ?_⟩
    by_contra hknown
    -- the two spellings are left as they are, and differ
    have hspellings := hone.spellings
    rw [normalize_split hcolon, normalize_split hslash, if_neg hknown, if_neg hknown, selectorKey,
      slashKey] at hspellings
    cases (List.append_cancel_left hspellings)
  · rintro ⟨split, hsplit', hknown⟩
    obtain rfl := Option.some.inj (hsplit.symm.trans hsplit')
    refine ⟨?_, ?_, normalize_idempotent g⟩
    · rw [normalize_split hsplit, if_pos hknown]
    · rw [normalize_split hcolon, normalize_split hslash, if_pos hknown, if_pos hknown]

/-! ### A slug -/

def oneProvider : AnyLLM where
  knows := fun name => decide (name = "openai".toList)
  isMember := fun name => decide (name = "openai".toList)
  splitModelProvider := fun selector =>
    (splitSelector selector).filter fun split => decide (split.1 = "openai".toList)
  splitModelProvider_eq := fun _ => rfl

/-- A deployment with one provider of any-llm and an organization key named by a slug. -/
def slugGateway : Gateway Unit Unit where
  anyLLM := oneProvider
  providers := []
  providerInstanceType := id
  providerNames := ["openai".toList]
  providerEndpointsEnabled := false
  claimedTarget := fun _ _ => none
  resolveCatalogSelector := fun _ _ => none
  resolveUndatedSelector := fun _ _ => none
  orgKeySlugProvider := fun workspaceId name =>
    if workspaceId = some 1 ∧ name = "acme".toList then some "openai".toList else none
  hostedNames := fun _ => none
  cachedOwnedEndpoint := fun _ _ => none
  ownedEndpointKwargs := fun _ => ()
  getProviderKwargs := fun _ _ _ => .ok ()

theorem oneKey_iff_openai :
    OneKey slugGateway "openai/gpt".toList ⟨"openai".toList, "openai".toList, "gpt".toList, (), none, none⟩ ↔
      Known slugGateway "openai/gpt".toList := by
  have h : resolveProviderSelector slugGateway {} "openai/gpt".toList =
      .ok ⟨"openai".toList, "openai".toList, "gpt".toList, (), none, none⟩ := rfl
  exact oneKey_iff h rfl

/-- A slug's selector with a slash resolves to the slug's key, and is priced under itself. -/
theorem slug_not_oneKey :
    resolveProviderSelector slugGateway { workspaceId := some 1 } "acme/gpt".toList =
        .ok ⟨"acme".toList, "openai".toList, "gpt".toList, (), none, none⟩ ∧
      ¬ OneKey slugGateway "acme/gpt".toList
        ⟨"acme".toList, "openai".toList, "gpt".toList, (), none, none⟩ := by
  refine ⟨rfl, fun h => ?_⟩
  exact absurd h.resolves (by decide)

end Otari.Selectors

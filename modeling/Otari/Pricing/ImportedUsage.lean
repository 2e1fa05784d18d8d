import Otari.Pricing.CurrentRates
import Otari.Pricing.UsagePricing

/-!
# Pricing — ImportedUsage — what an imported event is priced at

`services/external_usage_service.py`: a batch's rates are loaded once (`loadPricingIndex`), each
event's is resolved from them at its own timestamp (`resolvePricing`), and its row is priced
(`buildRow`).  `PricedAlike` compares that with the lookup and the settlement of a request.
-/

namespace Otari.Pricing
open Select Index
open Metered (RawValue RateField PricingError UsageReport)

/-! ### Events and rows -/

inductive EventStatus where
  | success
  | error
deriving DecidableEq

/-- `ExternalUsageEvent`, which no empty provider passes. -/
structure ExternalUsageEvent where
  sourceEventId : Key
  timestamp : Instant
  provider : Key
  model : Key
  status : EventStatus := .success
  inputTokens : ℕ := 0
  outputTokens : ℕ := 0
  cacheReadTokens : ℕ := 0
  cacheWriteTokens : ℕ := 0
  cacheWrite1hTokens : ℕ := 0
  reasoningTokens : ℕ := 0
  cacheTokensInPrompt : Bool := false
  durationMs : Option ℕ := none
  sessionLabel : Option Key := none
  userId : Option Key := none
  provider_ne : provider ≠ []

/-- A row of `usage_logs`, as an import writes it. -/
structure UsageLog where
  workspaceId : ℕ
  apiKeyId : Option ℕ
  userId : Key
  timestamp : Instant
  model : Key
  provider : Key
  endpoint : Key := "external".toList
  source : Key
  sourceEventId : Key
  sourceLabel : Option Key
  countsTowardBudget : Bool := false
  promptTokens : ℕ
  completionTokens : ℕ
  totalTokens : ℕ
  cacheReadTokens : ℕ
  cacheWriteTokens : ℕ
  cacheWrite1hTokens : ℕ
  reasoningTokens : ℕ
  cacheTokensInPrompt : Bool
  billingMeters : Option Metered.Meters
  pricingBreakdown : Option (List Metered.ChargeLine)
  cost : Option ℚ
  status : EventStatus
  latencyMs : Option ℕ

/-- Who imports: the batch's source, and whom its rows are attributed to. -/
structure Importer where
  source : Key
  userId : Key
  apiKeyId : Option ℕ
  workspaceId : ℕ

def ExternalUsageEvent.report (event : ExternalUsageEvent) : UsageReport where
  inputTokens := event.inputTokens
  outputTokens := event.outputTokens
  cacheTokensIncluded := event.cacheTokensInPrompt
  cacheReadTokens := event.cacheReadTokens
  cacheWriteTokens := event.cacheWriteTokens
  cacheWrite1hTokens := event.cacheWrite1hTokens

/-- `_build_usage`. -/
def buildUsage (event : ExternalUsageEvent) : Metered.BillableUsage :=
  Metered.billableUsage event.report

/-! ### A stored row as a rate -/

def rawRate : Option ℚ → RawValue
  | some rate => .decimal rate
  | none => .none

def RateColumns.raw (columns : RateColumns) : RateField → RawValue
  | .inputPricePerMillion => .decimal columns.inputPricePerMillion
  | .outputPricePerMillion => .decimal columns.outputPricePerMillion
  | .cacheReadPricePerMillion => rawRate columns.cacheReadPricePerMillion
  | .cacheWritePricePerMillion => rawRate columns.cacheWritePricePerMillion

def PricingTier.raw (tier : PricingTier) : Metered.Tier where
  minInputTokens := some (.int tier.minInputTokens)
  rates
    | .inputPricePerMillion => rawRate tier.inputPricePerMillion
    | .outputPricePerMillion => rawRate tier.outputPricePerMillion
    | .cacheReadPricePerMillion => rawRate tier.cacheReadPricePerMillion
    | .cacheWritePricePerMillion => rawRate tier.cacheWritePricePerMillion

/-- The rate object the cost core reads.  Its block is the columns' second spelling. -/
def ModelPricing.rate (row : ModelPricing) : Metered.ModelPricing where
  modelKey := some row.modelKey
  unit := some (.current row.columns.unit)
  rates := row.columns.raw
  pricingTiers := some (row.columns.pricingTiers.map fun tier => some tier.raw)
  block := none

/-! ### The price lists -/

/-- `default_pricing_match`, over the models.dev entry `_resolve_default` finds. -/
def defaultPricingMatch (resolveDefault : Option Key → Key → Instant → Option (RateColumns × Key))
    (provider : Option Key) (model : Key) (asOf : Instant) : Option (ModelPricing × Key) :=
  (resolveDefault provider model asOf).map fun entry =>
    ({ modelKey := modelKeyOf provider model, effectiveAt := asOf, columns := entry.1 }, entry.2)

/-- The two tables under their unique indexes, and the models.dev dataset with its switch. -/
structure PriceLists where
  overrides : List OrganizationModelPricing
  modelPricing : List ModelPricing
  defaultPricingEnabled : Bool
  resolveDefault : Option Key → Key → Instant → Option (RateColumns × Key)
  distinctStarts : DistinctStarts overrides
  distinctVersions : DistinctVersions modelPricing

def PriceLists.tables (lists : PriceLists) : PriceTables where
  overrides := lists.overrides
  modelPricing := lists.modelPricing
  defaultPricingEnabled := lists.defaultPricingEnabled
  defaultPricingMatch := defaultPricingMatch lists.resolveDefault

/-- `find_model_pricing` at a timestamp. -/
def findModelPricing (db : PriceTables) (provider : Option Key) (model : Key) (asOf : Instant)
    (organizationId : Option ℕ) : Option ModelPricing :=
  (resolveModelPricing db provider model asOf organizationId false).map (·.pricing)

/-! ### The import -/

/-- `_model_keys`. -/
def modelKeys (provider model : Key) : List Key :=
  [selectorKey provider model, provider ++ '/' :: model]

/-- Every rate a batch could resolve against. -/
structure BatchPricing where
  deployment : Key → List (Instant × ModelPricing)
  overrides : Key → List OverridePeriod

def selectVersions (rows : List ModelPricing) (chunk : List Key) : List ModelPricing :=
  rows.filter fun row => row.kind = .model ∧ row.modelKey ∈ chunk

/-- `_load_pricing_index`, whose chunks are as long as those of the overrides. -/
def loadPricingIndex (db : PriceTables) (pairs : List (Key × Key)) (organizationId : Option ℕ) :
    BatchPricing :=
  let keys := pairs.flatMap fun pair => modelKeys pair.1 pair.2
  let index := (batches keyChunk (keySet keys)).foldl
    (fun index chunk => (selectVersions db.modelPricing chunk).foldl (push (·.modelKey)) index)
    (fun _ => [])
  { deployment := fun key =>
      orderBy Prod.fst ((index key).map fun row => (row.effectiveAt, row))
    overrides := match organizationId with
      | some organization => loadOrganizationOverrideIndex db.overrides organization keys
      | none => fun _ => [] }

def newestVersion (lookup : Instant) :
    List (Instant × ModelPricing) → Option ModelPricing → Option ModelPricing
  | [], found => found
  | (effectiveAt, row) :: versions, found =>
    if effectiveAt ≤ lookup then newestVersion lookup versions (some row) else found

/-- `_resolve_pricing`. -/
def resolvePricing (db : PriceTables) (index : BatchPricing) (provider model : Key)
    (timestamp : Instant) : Option ModelPricing :=
  match resolveOrganizationOverride index.overrides (modelKeys provider model) timestamp with
  | some override => some override
  | none =>
    match (modelKeys provider model).findSome? fun key =>
      newestVersion timestamp (index.deployment key) none with
    | some row => some row
    | none => (defaultPricing db (some provider) model timestamp).map (·.pricing)

/-- `_build_row`. -/
def buildRow (importer : Importer) (event : ExternalUsageEvent) (pricing : Option ModelPricing) :
    Except PricingError UsageLog := do
  let priced ← match pricing with
    | none => pure none
    | some pricing => some <$> Metered.priceBillableUsage pricing.rate.toPricing (buildUsage event)
  return {
    workspaceId := importer.workspaceId
    apiKeyId := importer.apiKeyId
    userId := importer.userId
    timestamp := event.timestamp
    model := event.model
    provider := event.provider
    source := importer.source
    sourceEventId := event.sourceEventId
    sourceLabel := event.sessionLabel
    promptTokens := event.inputTokens
    completionTokens := event.outputTokens
    totalTokens := event.inputTokens + event.outputTokens
    cacheReadTokens := event.cacheReadTokens
    cacheWriteTokens := event.cacheWriteTokens
    cacheWrite1hTokens := event.cacheWrite1hTokens
    reasoningTokens := event.reasoningTokens
    cacheTokensInPrompt := event.cacheTokensInPrompt
    billingMeters := priced.map (·.meters)
    pricingBreakdown := priced.map (·.lines)
    cost := priced.map (·.cost)
    status := event.status
    latencyMs := event.durationMs }

/-! ### What is compared -/

def importedRate (lists : PriceLists) (organizationId : Option ℕ)
    (events : List ExternalUsageEvent) (event : ExternalUsageEvent) : Option ModelPricing :=
  resolvePricing lists.tables
    (loadPricingIndex lists.tables (events.map fun e => (e.provider, e.model)) organizationId)
    event.provider event.model event.timestamp

/-- What settling the same usage and outcome at a rate comes to. -/
def settledCost (event : ExternalUsageEvent) (rate : Option ModelPricing) :
    Except PricingError (Option ℚ) :=
  match rate with
  | none => .ok none
  | some rate =>
    (Metered.priceCompletion rate.rate (some event.report) (event.status = .success)).map
      (Option.map (·.cost))

/-- **An imported event is priced like a settled one**: at the rate the lookup selects, and to the
cost settlement gives at it. -/
def PricedAlike (lists : PriceLists) (organizationId : Option ℕ) (importer : Importer)
    (events : List ExternalUsageEvent) (event : ExternalUsageEvent) : Prop :=
  let rate := importedRate lists organizationId events event
  rate = findModelPricing lists.tables (some event.provider) event.model event.timestamp
      organizationId ∧
    (buildRow importer event rate).map (·.cost) = settledCost event rate

/-- The legacy spelling a lookup offers: the first colon becomes a slash. -/
def lookupLegacyKey (provider model : Key) : Key :=
  match partition ':' provider with
  | (instanceName, some rest) => instanceName ++ '/' :: selectorKey rest model
  | (_, none) => provider ++ '/' :: model

/-- The organization has an override for the key at the instant. -/
def PriceLists.Overridden (lists : PriceLists) (organizationId : Option ℕ) (asOf : Instant)
    (key : Key) : Prop :=
  ∃ row ∈ lists.overrides, organizationId = some row.organizationId ∧ row.kind = .model ∧
    row.modelKey = key ∧ row.covers asOf

/-- The deployment has a version of the key in effect at the instant. -/
def PriceLists.InEffect (lists : PriceLists) (asOf : Instant) (key : Key) : Prop :=
  ∃ row ∈ lists.modelPricing, row.kind = .model ∧ row.modelKey = key ∧ row.effectiveAt ≤ asOf

/-- The provider is spelled without a colon, or neither of the two legacy spellings it then has is
reached. -/
def SpelledAlike (lists : PriceLists) (organizationId : Option ℕ) (event : ExternalUsageEvent) :
    Prop :=
  let key := selectorKey event.provider event.model
  let legacy := event.provider ++ '/' :: event.model
  let legacy' := lookupLegacyKey event.provider event.model
  ':' ∉ event.provider ∨ lists.Overridden organizationId event.timestamp key ∨
    ¬ lists.Overridden organizationId event.timestamp legacy ∧
    ¬ lists.Overridden organizationId event.timestamp legacy' ∧
      (lists.InEffect event.timestamp key ∨
        ¬ lists.InEffect event.timestamp legacy ∧ ¬ lists.InEffect event.timestamp legacy')

/-- The event's tokens, read at a per-request rate's columns as at a token rate's, come to what one
request costs. -/
def ComesToOneRequest (row : ModelPricing) (event : ExternalUsageEvent) : Prop :=
  ∃ rates one, Metered.effectiveRates row.rate.toPricing (buildUsage event).totalInputTokens =
      .ok rates ∧ Metered.requestCost row.rate.toPricing = .ok one ∧
    Metered.quantizeCost (Metered.chargeMeters rates (buildUsage event)).cost =
      Metered.quantizeCost one

/-- The rate is in a unit completions are metered in, or is per request and comes to the same. -/
def MeteredAlike (row : ModelPricing) (event : ExternalUsageEvent) : Prop :=
  if Metered.pricedPerRequest row.rate.toPricing then
    event.status = .success ∧ ComesToOneRequest row event
  else Metered.hasCompletionMeter row.rate = true

end Otari.Pricing

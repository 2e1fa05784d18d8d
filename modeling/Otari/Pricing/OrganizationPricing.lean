import Otari.Pricing.Overrides

/-!
# Pricing — OrganizationPricing — writing an organization's prices

The two surfaces that write overrides.  `services/organization_pricing_service.py` creates, replaces
and deletes a period, after `raiseIfOverlapping`; `services/providers/_org_provider_model_service.py`
offers and reprices the models of a provider key, seeding a row open ended from now for each model
no table prices (`seededRow`), with no overlap check.

Each operation is one transaction over the tables: it returns them changed, or an error and nothing
is changed.
-/

namespace Otari.Pricing
open Select Index

/-! ### Tables, callers and errors -/

structure ProviderKey where
  id : ℕ
  organizationId : ℕ
  selectorPrefix : Key

/-- A row of `org_provider_key_model`: a model a key offers, and whether it is served. -/
structure OfferedModel where
  keyId : ℕ
  model : Key
  enabled : Bool
deriving DecidableEq

structure Tables where
  overrides : List OrganizationModelPricing
  modelPricing : List ModelPricing
  offered : List OfferedModel
  /-- The next override's id, fresh. -/
  nextId : ℕ

/-- What an operation reads beside the tables: whether the caller operates the deployment, which
keys the deployment supplies the credential for, the `require_pricing` switch, and the community
dataset. -/
structure Deployment where
  operatesDeployment : Bool
  deploymentSupplied : ℕ → Key → Bool
  requirePricing : Bool
  communityDefault : Key → Option RateColumns

inductive PricingFailure where
  | toolRate (kind : PricingKind) (name : Key)
  | codeExecutionRate (name : Key)
  | managedModel (modelKey : Key)
  | operatorRate (modelKey : Key)
  | notFound (pricingId : ℕ)
  /-- `effective_to must be after effective_from`. -/
  | periodInverted
  /-- `{field} must be non-negative`. -/
  | negativeRate (field : Metered.RateField)
  /-- `a {kind} rate is per call, so its unit is 'request'`. -/
  | unitNotRequest (kind : PricingKind)
  | overlap (modelKey : Key) (effectiveFrom : Instant) (effectiveTo : Option Instant)
  | integrity
  | modelAlreadyOffered (model : Key)
deriving DecidableEq

structure PricingOverrideInput where
  columns : RateColumns
  effectiveFrom : Instant
  effectiveTo : Option Instant

/-! ### The checks -/

/-- Refuse a period that could never apply to any instant. -/
def validatePeriod (effectiveFrom : Instant) (effectiveTo : Option Instant) :
    Except PricingFailure Unit :=
  if endsAfter effectiveTo effectiveFrom then .ok () else .error .periodInverted

/-- The four rates in the order they are checked. -/
def RateColumns.checked (columns : RateColumns) : List (Metered.RateField × Option ℚ) :=
  [(.inputPricePerMillion, some columns.inputPricePerMillion),
   (.outputPricePerMillion, some columns.outputPricePerMillion),
   (.cacheReadPricePerMillion, columns.cacheReadPricePerMillion),
   (.cacheWritePricePerMillion, columns.cacheWritePricePerMillion)]

/-- Refuse a negative rate, naming its field. -/
def validateRates (columns : RateColumns) : Except PricingFailure Unit :=
  match columns.checked.find? fun rate => rate.2.any (· < 0) with
  | some rate => .error (.negativeRate rate.1)
  | none => .ok ()

/-- Refuse a search or fetch rate in any unit but `request`. -/
def validateUnit (kind : PricingKind) (unit : Metered.PriceUnit) : Except PricingFailure Unit :=
  if kind ≠ .model ∧ unit ≠ .request then .error (.unitNotRequest kind) else .ok ()

/-- `_CODE_EXECUTION_KEYS`. -/
def codeExecutionKeys : List Key := pricingKeyForms "otari:code_execution".toList

/-- Refuse a rate for a model or tool the deployment, not the organization, pays for. -/
def raiseIfDeploymentSupplied (d : Deployment) (organizationId : ℕ) (modelKey : Key)
    (kind : PricingKind) : Except PricingFailure Unit :=
  if d.operatesDeployment then .ok ()
  else if kind ≠ .model then .error (.toolRate kind modelKey)
  else if modelKey ∈ codeExecutionKeys then .error (.codeExecutionRate modelKey)
  else if d.deploymentSupplied organizationId modelKey then .error (.managedModel modelKey)
  else .ok ()

def OrganizationModelPricing.inSeries (row : OrganizationModelPricing) (organizationId : ℕ)
    (kind : PricingKind) (modelKey : Key) : Prop :=
  row.organizationId = organizationId ∧ row.kind = kind ∧ row.modelKey = modelKey

instance (row : OrganizationModelPricing) (organizationId : ℕ) (kind : PricingKind)
    (modelKey : Key) : Decidable (row.inSeries organizationId kind modelKey) :=
  inferInstanceAs (Decidable (_ ∧ _))

/-- Refuse a period that covers an instant this key, of this kind, is already priced for. -/
def raiseIfOverlapping (rows : List OrganizationModelPricing) (organizationId : ℕ)
    (modelKey : Key) (effectiveFrom : Instant) (effectiveTo : Option Instant)
    (excludeId : Option ℕ) (kind : PricingKind) : Except PricingFailure Unit :=
  match rows.find? fun row => row.inSeries organizationId kind modelKey ∧
      endsAfter row.effectiveTo effectiveFrom ∧ endsAfter effectiveTo row.effectiveFrom ∧
      ∀ id ∈ excludeId, row.id ≠ id with
  | some clash => .error (.overlap modelKey clash.effectiveFrom clash.effectiveTo)
  | none => .ok ()

/-- `_flush_or_conflict`: a row already at this period start is a conflict naming its period. -/
def flushOrConflict (rows : List OrganizationModelPricing) (organizationId : ℕ) (modelKey : Key)
    (effectiveFrom : Instant) (excludeId : Option ℕ) (kind : PricingKind) :
    Except PricingFailure Unit :=
  match rows.find? fun row => row.inSeries organizationId kind modelKey ∧
      row.effectiveFrom = effectiveFrom ∧ ∀ id ∈ excludeId, row.id ≠ id with
  | some clash => .error (.overlap modelKey clash.effectiveFrom clash.effectiveTo)
  | none => .ok ()

/-! ### The override surface -/

/-- The columns at the rate column's scale, as `UsdRate` binds them. -/
def RateColumns.stored (columns : RateColumns) : RateColumns :=
  { columns with
    inputPricePerMillion := Metered.quantizeRate columns.inputPricePerMillion
    outputPricePerMillion := Metered.quantizeRate columns.outputPricePerMillion
    cacheReadPricePerMillion := columns.cacheReadPricePerMillion.map Metered.quantizeRate
    cacheWritePricePerMillion := columns.cacheWritePricePerMillion.map Metered.quantizeRate }

def originFor (d : Deployment) : Origin :=
  if d.operatesDeployment then .operator else .api

def createForCaller (d : Deployment) (t : Tables) (organizationId : ℕ) (modelKey : Key)
    (override : PricingOverrideInput) (kind : PricingKind) : Except PricingFailure Tables := do
  raiseIfDeploymentSupplied d organizationId modelKey kind
  validatePeriod override.effectiveFrom override.effectiveTo
  validateRates override.columns
  validateUnit kind override.columns.unit
  raiseIfOverlapping t.overrides organizationId modelKey override.effectiveFrom
    override.effectiveTo none kind
  flushOrConflict t.overrides organizationId modelKey override.effectiveFrom none kind
  let row : OrganizationModelPricing :=
    { id := t.nextId
      organizationId := organizationId
      kind := kind
      modelKey := modelKey
      columns := override.columns.stored
      origin := some (originFor d)
      effectiveFrom := override.effectiveFrom
      effectiveTo := override.effectiveTo }
  return { t with overrides := t.overrides ++ [row], nextId := t.nextId + 1 }

/-- One override, scoped to the organization so another tenant's is not found. -/
def ownedRow (t : Tables) (organizationId pricingId : ℕ) :
    Except PricingFailure OrganizationModelPricing :=
  match t.overrides.find? fun row => row.id = pricingId ∧ row.organizationId = organizationId with
  | some row => .ok row
  | none => .error (.notFound pricingId)

/-- Refuse an organization manager's edit or delete of a rate the operator set. -/
def raiseIfOperatorRate (d : Deployment) (row : OrganizationModelPricing) :
    Except PricingFailure Unit :=
  if row.origin = some .operator ∧ !d.operatesDeployment then .error (.operatorRate row.modelKey)
  else .ok ()

def rewriteRow (rows : List OrganizationModelPricing) (id : ℕ)
    (f : OrganizationModelPricing → OrganizationModelPricing) : List OrganizationModelPricing :=
  rows.map fun row => if row.id = id then f row else row

def replaceForCaller (d : Deployment) (t : Tables) (organizationId pricingId : ℕ)
    (override : PricingOverrideInput) : Except PricingFailure Tables := do
  let row ← ownedRow t organizationId pricingId
  raiseIfOperatorRate d row
  raiseIfDeploymentSupplied d organizationId row.modelKey row.kind
  validatePeriod override.effectiveFrom override.effectiveTo
  validateRates override.columns
  validateUnit row.kind override.columns.unit
  raiseIfOverlapping t.overrides organizationId row.modelKey override.effectiveFrom
    override.effectiveTo (some row.id) row.kind
  flushOrConflict t.overrides organizationId row.modelKey override.effectiveFrom (some row.id)
    row.kind
  return { t with overrides := rewriteRow t.overrides row.id fun row =>
    { row with
      columns := override.columns.stored
      effectiveFrom := override.effectiveFrom
      effectiveTo := override.effectiveTo
      origin := some (originFor d) } }

def deleteForCaller (d : Deployment) (t : Tables) (organizationId pricingId : ℕ) :
    Except PricingFailure Tables := do
  let row ← ownedRow t organizationId pricingId
  raiseIfOperatorRate d row
  return { t with overrides := t.overrides.filter (·.id ≠ row.id) }

/-! ### The ladder, in batch -/

/-- One rung's answer: the rate, and which rung it came from. -/
structure EffectiveRate where
  source : PriceSource
  rates : ModelPricing
  /-- The organization's own row, when that rung answered. -/
  row : Option OrganizationModelPricing

/-- What this organization is charged for each key, and which rung says so. -/
def ratesInEffect (d : Deployment) (t : Tables) (organizationId : ℕ) (modelKeys : List Key)
    (asOf : Instant) (modelKey : Key) : Option EffectiveRate :=
  if modelKey ∈ modelKeys then
    match applicableRows t.overrides organizationId modelKeys asOf modelKey,
        deploymentRows t.modelPricing modelKeys asOf modelKey with
    | some row, _ => some ⟨.organization, overrideAsModelPricing row, some row⟩
    | none, some row => some ⟨.deployment, row, none⟩
    | none, none => (d.communityDefault modelKey).map fun columns =>
      ⟨.defaults, { modelKey := modelKey, effectiveAt := asOf, columns := columns }, none⟩
  else none

/-! ### The offered-models surface -/

/-- Whether a stored rate still says what today's community default says. -/
def sameRates (stored default : RateColumns) : Bool :=
  let a := stored.stored
  let b := default.stored
  a.inputPricePerMillion = b.inputPricePerMillion ∧
    a.outputPricePerMillion = b.outputPricePerMillion ∧
    a.cacheReadPricePerMillion = b.cacheReadPricePerMillion ∧
    a.cacheWritePricePerMillion = b.cacheWritePricePerMillion ∧
    a.pricingTiers = b.pricingTiers

def pricedByDeployment (rate : Option EffectiveRate) : Bool :=
  rate.any (·.source = .deployment)

/-- Whether a refresh may move what this key currently pays. -/
def repriceable (rate : Option EffectiveRate) : Bool :=
  if pricedByDeployment rate then false
  else match rate.bind (·.row) with
    | some row => row.origin = some .seed
    | none => true

/-- A rate row carrying a community default, open ended. -/
def seededRow (id organizationId : ℕ) (modelKey : Key) (default : RateColumns)
    (effectiveFrom : Instant) : OrganizationModelPricing where
  id := id
  organizationId := organizationId
  modelKey := modelKey
  columns := default.stored
  origin := some .seed
  effectiveFrom := effectiveFrom
  effectiveTo := none

/-- Move a seeded row onto today's community default, in place: its unit and its period stay. -/
def applyDefault (default : RateColumns) (row : OrganizationModelPricing) :
    OrganizationModelPricing :=
  { row with columns := { default.stored with unit := row.columns.unit } }

def ProviderKey.modelKey (key : ProviderKey) (model : Key) : Key :=
  selectorKey key.selectorPrefix model

/-- Which of `models` this organization may hold its own rate for. -/
def seedable (d : Deployment) (key : ProviderKey) (models : List Key) : List Key :=
  models.filter fun model => !d.deploymentSupplied key.organizationId (key.modelKey model)

/-- Stage seeded rows, numbered from the next id.  Only the unique index can refuse one. -/
def stageSeededRates (t : Tables) (organizationId : ℕ) (effectiveFrom : Instant) :
    List (Key × RateColumns) → Except PricingFailure Tables
  | [] => .ok t
  | (modelKey, default) :: rest =>
    match flushOrConflict t.overrides organizationId modelKey effectiveFrom none .model with
    | .error _ => .error .integrity
    | .ok () =>
      stageSeededRates
        { t with
          overrides := t.overrides ++
            [seededRow t.nextId organizationId modelKey default effectiveFrom]
          nextId := t.nextId + 1 }
        organizationId effectiveFrom rest

/-- Stage offered rows; the unique index on key and model refuses one already offered. -/
def createMany (offered : List OfferedModel) : List OfferedModel →
    Except PricingFailure (List OfferedModel)
  | [] => .ok offered
  | row :: rest =>
    if ∃ other ∈ offered, other.keyId = row.keyId ∧ other.model = row.model then
      .error (.modelAlreadyOffered row.model)
    else createMany (offered ++ [row]) rest

/-- The models a table already prices at `now`, among those offered. -/
def pricedByATable (d : Deployment) (t : Tables) (key : ProviderKey) (models : List Key)
    (now : Instant) (model : Key) : Bool :=
  (ratesInEffect d t key.organizationId (models.map key.modelKey) now (key.modelKey model)).any
    (·.source ≠ .defaults)

/-- The rates `_offer` seeds: one for each model no table prices, that the organization may price
and the dataset has a default for. -/
def offerSeeds (d : Deployment) (t : Tables) (key : ProviderKey) (models : List Key)
    (defaults : Key → Option RateColumns) (now : Instant) : List (Key × RateColumns) :=
  models.dedup.filterMap fun model =>
    if pricedByATable d t key models now model ∨ model ∉ seedable d key models then none
    else (defaults model).map fun default => (key.modelKey model, default)

/-- Record models as offered, seeding a rate where one is missing and permitted. -/
def offer (d : Deployment) (t : Tables) (key : ProviderKey) (models : List Key)
    (defaults : Key → Option RateColumns) (now : Instant) : Except PricingFailure Tables := do
  let seeded := offerSeeds d t key models defaults now
  let staged ← stageSeededRates t key.organizationId now seeded
  let offered ← createMany staged.offered (models.map fun model =>
    { keyId := key.id
      model := model
      enabled := !d.requirePricing || pricedByATable d t key models now model ||
        (seeded.map Prod.fst).contains (key.modelKey model) })
  return { staged with offered := offered }

/-- `_defaults_for`: today's community rate for each of `models`. -/
def defaultsFor (d : Deployment) (key : ProviderKey) (models : List Key) (model : Key) :
    Option RateColumns :=
  if model ∈ models then d.communityDefault (key.modelKey model) else none

/-- What `_reprice` decides for one offered model. -/
inductive Repricing where
  | keep
  | move (row : OrganizationModelPricing) (default : RateColumns)
  | seed (default : RateColumns)

def repricing (defaults : Key → Option RateColumns) (rate : Option EffectiveRate)
    (allowed : List Key) (model : Key) : Repricing :=
  match rate.bind (·.row), defaults model with
  | some existing, some default =>
    if existing.origin ≠ some .seed ∨ sameRates existing.columns default then .keep
    else .move existing default
  | some _, none => .keep
  | none, none => .keep
  | none, some default =>
    if pricedByDeployment rate ∨ model ∉ allowed then .keep else .seed default

def Tables.offeredBy (t : Tables) (key : ProviderKey) : List Key :=
  (t.offered.filter (·.keyId = key.id)).map (·.model)

/-- What `_reprice` decides for each offered model, read at `now` after the candidates were chosen
at `before`. -/
def repricings (d : Deployment) (t : Tables) (key : ProviderKey) (added : List Key)
    (before now : Instant) : List (Key × Repricing) :=
  let models := t.offeredBy key
  let keys := models.map key.modelKey
  let candidates := models.filter fun model =>
    repriceable (ratesInEffect d t key.organizationId keys before (key.modelKey model))
  models.map fun model => (model, repricing (defaultsFor d key (candidates ++ added))
    (ratesInEffect d t key.organizationId keys now (key.modelKey model))
    (seedable d key candidates) model)

/-- The seeded rows a refresh moves onto today's default. -/
def applyMoves (rows : List OrganizationModelPricing) :
    List (Key × Repricing) → List OrganizationModelPricing
  | [] => rows
  | (_, .move existing default) :: rest =>
    applyMoves (rewriteRow rows existing.id (applyDefault default)) rest
  | _ :: rest => applyMoves rows rest

def repriceSeeds (key : ProviderKey) (decided : List (Key × Repricing)) :
    List (Key × RateColumns) :=
  decided.filterMap fun
    | (model, .seed default) => some (key.modelKey model, default)
    | _ => none

/-- A row this refresh seeds a rate for starts serving, where the deployment requires pricing. -/
def serveSeeded (d : Deployment) (key : ProviderKey) (seeded : List (Key × RateColumns))
    (row : OfferedModel) : OfferedModel :=
  if row.keyId = key.id ∧ (seeded.map Prod.fst).contains (key.modelKey row.model) ∧
      d.requirePricing then { row with enabled := true } else row

/-- Reseed every still-seeded rate, then offer `added`.  The three reads of the clock are the
candidates', the refresh's and the offer's. -/
def reprice (d : Deployment) (t : Tables) (key : ProviderKey) (added : List Key)
    (before now after : Instant) : Except PricingFailure Tables := do
  let decided := repricings d t key added before now
  let seeded := repriceSeeds key decided
  let moved := { t with
    overrides := applyMoves t.overrides decided
    offered := t.offered.map (serveSeeded d key seeded) }
  let staged ← stageSeededRates moved key.organizationId now seeded
  if added = [] then return staged
  else
    let candidates := (t.offeredBy key).filter fun model => repriceable
      (ratesInEffect d t key.organizationId ((t.offeredBy key).map key.modelKey) before
        (key.modelKey model))
    offer d staged key added (defaultsFor d key (candidates ++ added)) after

end Otari.Pricing

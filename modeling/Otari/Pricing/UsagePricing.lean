import Otari.Pricing.MeteredPricing

/-!
# Pricing — UsagePricing — which meter a rate prices, and the gate that asks it first

`services/pricing/_usage_pricing.py` over `_slot_pricing.py`: `priceUsage` is what one successful
attempt costs at a rate, `canPrice` what the `require_pricing` gate asks before the attempt is made.
A rate's unit chooses a row of `meters`, unless the endpoint bills under a slot the rate's block
prices in a measured unit.

A rate's `rates` block is kept as `parse_pricing` reads it, which every reader of it goes through.
-/

namespace Otari.Metered

/-! ### The block of a rate -/

inductive Direction where
  | input | output
deriving DecidableEq

/-- `ModelsDevCachePrices`, a price `RawValue.none` where the document gives none. -/
structure CachePrices where
  read : RawValue
  write : RawValue
  writeTtls : List (String × RawValue)
  storage : RawValue

structure PriceOverride where
  price : RawValue
  reasoning : RawValue
  cache : Option CachePrices
  explicitCache : Option CachePrices

/-- `ModelsDevUnitPrice`: one price of a block, in the unit the document names. -/
structure UnitPrice where
  price : RawValue
  unit : Option String
  reasoning : RawValue
  cache : Option CachePrices
  explicitCache : Option CachePrices
  overrides : List PriceOverride

structure ModalityCost where
  input : Option UnitPrice
  output : Option UnitPrice

/-- `ModelsDevPricing`. -/
structure Block where
  modalities : List (String × ModalityCost)
  webSearch : Option UnitPrice

/-- A stored rate: its columns, and its block, `none` where it is absent or empty. -/
structure ModelPricing extends Pricing where
  block : Option Block

/-- `models_dev_unit`: a unit no meter knows is none. -/
def modelsDevUnit (value : Option String) : Option PriceUnit :=
  match value with
  | none | some "" | some "token" => some .token
  | some "character" => some .character
  | some "image" => some .image
  | some "megapixel" => some .megapixel
  | some "second" => some .second
  | some "minute" => some .minute
  | some _ => none

/-- `PRICE_PER`: how many of the unit one published price buys. -/
def pricePer : PriceUnit → ℚ
  | .token | .character => 1000000
  | .webSearch => 1000
  | .request | .image | .megapixel | .second | .minute => 1

/-- One published price: USD per `pricePer unit` of the unit. -/
structure UnitRate where
  unit : PriceUnit
  price : ℚ
deriving DecidableEq

def slotPrice (block : Block) (modality : String) (direction : Direction) : Option UnitPrice :=
  (block.modalities.lookup modality).bind fun prices =>
    match direction with
    | .input => prices.input
    | .output => prices.output

/-- `unit_rate` of a slot's base price. -/
def unitRate (price : UnitPrice) : Option UnitRate :=
  match modelsDevUnit price.unit, toDecimal price.price with
  | some unit, some rate => some ⟨unit, rate⟩
  | _, _ => none

def slotRate (rate : ModelPricing) (modality : String) (direction : Direction) : Option UnitRate :=
  (rate.block.bind fun block => slotPrice block modality direction).bind unitRate

def cachePriceList (cache : Option CachePrices) : List RawValue :=
  match cache with
  | none => []
  | some cache => [cache.read, cache.write, cache.storage] ++ cache.writeTtls.map Prod.snd

def overridePrices (override : PriceOverride) : List RawValue :=
  [override.price, override.reasoning]
    ++ cachePriceList override.cache ++ cachePriceList override.explicitCache

def unitPrices (slot : UnitPrice) : List RawValue :=
  [slot.price, slot.reasoning] ++ cachePriceList slot.cache ++ cachePriceList slot.explicitCache
    ++ slot.overrides.flatMap overridePrices

/-- `_block_prices`. -/
def blockPrices (block : Block) : List RawValue :=
  (block.modalities.flatMap fun modality =>
      (modality.2.input.toList ++ modality.2.output.toList).flatMap unitPrices)
    ++ block.webSearch.toList.flatMap unitPrices

/-- Whether a price is absent, unusable or zero. -/
def chargesNothing (value : RawValue) : Bool :=
  (toDecimal value).getD 0 = 0

def blockIsFree (block : Option Block) : Bool :=
  match block with
  | none => true
  | some block => (blockPrices block).all chargesNothing

/-! ### What an attempt settles at -/

/-- The line explaining one charge: a token meter's, or a count's or quantity's. -/
inductive UsageLine where
  | tokens (line : ChargeLine)
  | units (meter : String) (units unitRate cost : ℚ)
  | quantity (meter : String) (units : ℚ) (unit : PriceUnit) (price cost : ℚ)
deriving DecidableEq

inductive UsageMeters where
  | none
  | tokens (meters : Meters)
  | count (meter : String) (units : ℚ)
deriving DecidableEq

structure UsageCharge where
  cost : ℚ
  meters : UsageMeters
  lines : List UsageLine
deriving DecidableEq

def UsageCharge.free : UsageCharge := ⟨0, .none, []⟩

inductive UsageError where
  /-- `ValueError("The … count must be a whole number …")`. -/
  | invalidCount (meter : String)
  /-- `ValueError("a quantity to price must be a finite non-negative number …")`. -/
  | invalidQuantity (unit : PriceUnit)
  | pricing (error : PricingError)
deriving DecidableEq

/-- `UNIT_METER`. -/
def unitMeter : PriceUnit → String
  | .token => "tokens"
  | .request => "requests"
  | .image => "images"
  | .character => "characters"
  | .megapixel => "megapixels"
  | .second => "seconds"
  | .minute => "minutes"
  | .webSearch => "searches"

/-- What an endpoint measured, in each unit it can measure. -/
abbrev Quantities := PriceUnit → Option ℚ

def priceSlot (rate : ModelPricing) (modality : String) (direction : Direction)
    (quantities : Quantities) : Except UsageError (Option UsageCharge) :=
  match slotRate rate modality direction with
  | none => .ok none
  | some found =>
    match quantities found.unit with
    | none => .ok none
    | some quantity =>
      if quantity < 0 then .error (.invalidQuantity found.unit)
      else
        let exact := quantity * found.price / pricePer found.unit
        let cost := quantizeCost exact
        if cost = 0 then .ok (some .free)
        else
          let meter := unitMeter found.unit
          .ok (some ⟨cost, .count meter quantity,
            if quantity = 0 then [] else [.quantity meter quantity found.unit found.price exact]⟩)

/-! ### The meters -/

def requestsMeter : String := "requests"
def searchUnitsMeter : String := "search_units"
def imagesMeter : String := "images"

/-- `UNIT_METERS`. -/
def reportedMeters : List String := [requestsMeter, searchUnitsMeter, imagesMeter]

def maxReportedUnits : ℤ := 1000000

/-- A slot of a rate's block: a modality and a direction. -/
abbrev Slot := String × Direction

/-- `MEASURED_UNITS`. -/
def measured : PriceUnit → Bool
  | .image | .character | .megapixel | .second | .minute | .webSearch => true
  | .token | .request => false

abbrev Counts := List (String × ℤ)

/-- A whole count in range, when the value is one. -/
def wholeCount : RawValue → Option ℤ
  | .int n => if 0 ≤ n ∧ n ≤ maxReportedUnits then some n else none
  | _ => none

/-- The known meters of a report, each with a whole count. -/
def validatedUnits : List (String × RawValue) → Except UsageError Counts
  | [] => .ok []
  | (meter, count) :: raw =>
    if meter ∈ reportedMeters then
      match wholeCount count with
      | some n => do return (meter, n) :: (← validatedUnits raw)
      | none => .error (.invalidCount meter)
    else validatedUnits raw

/-- `_free`: every price the rate holds is zero, in its columns, its tiers and its block.  A tier that is
no object, on which `_free` raises, is passed over: the columns of a rate hold none. -/
def freeRate (rate : ModelPricing) (inputRate : ℚ) : Bool :=
  let fields := [RateField.outputPricePerMillion, .cacheReadPricePerMillion, .cacheWritePricePerMillion]
  let tiers := (rate.pricingTiers.getD []).reduceOption
  inputRate = 0 && fields.all (fun name => chargesNothing (rate.rates name))
    && tiers.all (fun tier =>
      (RateField.inputPricePerMillion :: fields).all fun name => chargesNothing (tier.rates name))
    && blockIsFree rate.block

/-- `_charge_tokens`. -/
def chargeTokens (rate : ModelPricing) (tokens : Option BillableUsage) :
    Except UsageError (Option UsageCharge) :=
  match toDecimal (rate.rates .inputPricePerMillion) with
  | none => .ok none
  | some inputRate =>
    match tokens.filter fun u => 0 < u.totalInputTokens || 0 < u.completionTokens with
    | none => .ok (if freeRate rate inputRate then some .free else none)
    | some usage =>
      match priceBillableUsage rate.toPricing usage with
      | .error e => .error (.pricing e)
      | .ok priced => .ok (some ⟨priced.cost, .tokens priced.meters, priced.lines.map .tokens⟩)

/-- `_request_rate`, and `_image_rate`: USD for one, the column being per million of them. -/
def onePerMillion (rate : ModelPricing) : Option ℚ :=
  (toDecimal (rate.rates .inputPricePerMillion)).map (meterCost 1)

/-- `_per_unit`. -/
def perUnit (meter : String) (count : ℤ) (unitRate : Option ℚ) : Option UsageCharge :=
  unitRate.map fun unitRate =>
    let cost := quantizeCost (count * unitRate)
    if cost = 0 then .free
    else
      let lineMeter := if meter = requestsMeter then "request" else meter
      ⟨cost, .count meter count, [.units lineMeter count unitRate cost]⟩

/-- `_charge_requests`. -/
def chargeRequests (rate : ModelPricing) (counts : Counts) : Option UsageCharge :=
  match counts.lookup requestsMeter with
  | some count => perUnit requestsMeter count (onePerMillion rate)
  | none =>
    match counts.lookup searchUnitsMeter with
    | some count => perUnit searchUnitsMeter count (onePerMillion rate)
    | none => perUnit requestsMeter 1 (onePerMillion rate)

/-- `_charge_images`. -/
def chargeImages (rate : ModelPricing) (counts : Counts) : Option UsageCharge :=
  (counts.lookup imagesMeter).bind fun count => perUnit imagesMeter count (onePerMillion rate)

/-- One row of `meters`. -/
structure MeterRow where
  reads : List String
  tokens : Bool
  needsReport : Bool
  settlesCompletion : Bool
  charge : ModelPricing → Counts → Option BillableUsage → Except UsageError (Option UsageCharge)

def MeterRow.admits (row : MeterRow) (meter : Option String) (reportsTokens : Bool) : Bool :=
  !row.needsReport || meter.any (· ∈ row.reads) || (row.tokens && reportsTokens)

/-- `METERS`: the meter each unit prices by. -/
def meters : PriceUnit → Option MeterRow
  | .token => some ⟨[], true, true, true, fun rate _ tokens => chargeTokens rate tokens⟩
  | .request => some ⟨[requestsMeter, searchUnitsMeter], false, false, true,
      fun rate counts _ => .ok (chargeRequests rate counts)⟩
  | .image => some ⟨[imagesMeter], false, true, true,
      fun rate counts _ => .ok (chargeImages rate counts)⟩
  | _ => none

/-- A row's unit is read in its current spelling. -/
def meterFor (rate : ModelPricing) : Option MeterRow :=
  meters ((rate.unit.map currentUnitName).getD .token)

/-- The measured unit the rate prices a slot in, if it does. -/
def measuredSlot (rate : ModelPricing) (slot : Slot) : Option PriceUnit :=
  ((slotRate rate slot.1 slot.2).map UnitRate.unit).filter measured

structure AttemptReport where
  tokens : Option BillableUsage
  units : List (String × RawValue)
  quantities : Quantities

def priceUsage (rate : Option ModelPricing) (report : AttemptReport) (slot : Option Slot) :
    Except UsageError (Option UsageCharge) := do
  let counts ← validatedUnits report.units
  match rate with
  | none => return none
  | some rate =>
    match slot.bind fun slot => (measuredSlot rate slot).map fun _ => slot with
    | some slot => priceSlot rate slot.1 slot.2 report.quantities
    | none =>
      match meterFor rate with
      | some row => row.charge rate counts report.tokens
      | none => return none

/-! ### Completions -/

/-- `has_completion_meter`. -/
def hasCompletionMeter (rate : ModelPricing) : Bool :=
  (meterFor rate).any (·.settlesCompletion)

/-- `price_request`: a free request carries no line. -/
def priceRequest (rate : Pricing) : Except PricingError UsageCharge := do
  let cost := quantizeCost (← requestCost rate)
  return ⟨cost, .count requestsMeter 1, if cost = 0 then [] else [.units "request" 1 cost cost]⟩

/-- `calculate_metered_cost`, the carrier as `billable_usage_of` reads it. -/
def calculateMeteredCost (rate : Pricing) (usage : UsageReport) : Except PricingError UsageCharge :=
  (priceBillableUsage rate (billableUsage usage)).map fun priced =>
    ⟨priced.cost, .tokens priced.meters, priced.lines.map .tokens⟩

/-- What one completion costs at a rate, `none` where the rate prices nothing it reported. -/
def priceCompletion (rate : ModelPricing) (usage : Option UsageReport) (succeeded : Bool) :
    Except PricingError (Option UsageCharge) :=
  if pricedPerRequest rate.toPricing then
    if succeeded then (priceRequest rate.toPricing).map some else .ok none
  else
    match usage with
    | none => .ok none
    | some usage =>
      if hasCompletionMeter rate then (calculateMeteredCost rate.toPricing usage).map some
      else .ok none

/-! ### The gate -/

/-- The shape of the reports an endpoint makes. -/
structure ReportShape where
  meter : Option String
  reportsTokens : Bool
  slot : Option Slot
  measures : PriceUnit → Bool

def canPrice (rate : Option ModelPricing) (shape : ReportShape) : Bool :=
  match rate with
  | none => false
  | some rate =>
    match toDecimal (rate.rates .inputPricePerMillion) with
    | none => false
    | some inputRate =>
      match shape.slot.bind (measuredSlot rate) with
      | some found => shape.measures found
      | none =>
        match meterFor rate with
        | none => false
        | some row =>
          -- a free token rate settles free whatever the attempt reports
          row.admits shape.meter shape.reportsTokens || (row.tokens && freeRate rate inputRate)

end Otari.Metered

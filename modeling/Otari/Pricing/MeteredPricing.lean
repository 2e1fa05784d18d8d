import Otari.Support.Outcome
import Otari.Support.Rounding
import Otari.Support.Select

/-!
# Pricing — MeteredPricing — the cost-math core

`core/metered_pricing.py`: how a usage report is normalized into billable meters (`billableUsage`),
which rates a request reaches on a rate card with threshold tiers (`effectiveRates`), what its
meters settle at (`priceBillableUsage`) and what is held for it before usage is known
(`estimateMeteredCost`).

A `Decimal` is a rational: the core multiplies before it divides by a power of ten, so its
arithmetic is exact up to the one rounding `quantizeCost` makes.  A `ChargeLine` keeps the exact
amounts the source narrows to JSON floats.
-/

namespace Otari.Metered
open Rounding Select

/-! ### Stored values -/

/-- A value read off a rate object or out of a JSON tier.  A float carries what `str` spells and what
it denotes, a string what `Decimal` and what `int` read in it. -/
inductive RawValue where
  | none
  | bool (b : Bool)
  | int (n : ℤ)
  | decimal (q : ℚ)
  | float (shown value : ℚ)
  | nan
  | infinity
  | text (asDecimal : Option ℚ) (asInt : Option ℤ)
  | other
deriving DecidableEq

inductive PricingError where
  /-- `ValueError("Pricing carries no usable input or output rate")`. -/
  | noUsableRate
  /-- `ValueError("Pricing carries no usable per-request rate")`. -/
  | noUsableRequestRate
  /-- `OverflowError`, from `int` of an infinity. -/
  | overflow
deriving DecidableEq

/-- `Decimal(str(value))` when that is a finite decimal. -/
def RawValue.candidate : RawValue → Option ℚ
  | .int n => some n
  | .decimal q => some q
  | .float shown _ => some shown
  | .text asDecimal _ => asDecimal
  | _ => Option.none

def toDecimal (value : RawValue) : Option ℚ :=
  value.candidate.filter (0 ≤ ·)

/-- `int` of a number, which drops the fraction. -/
def truncate (q : ℚ) : ℤ :=
  if 0 ≤ q then ⌊q⌋ else ⌈q⌉

/-- `int(raw)`: a `TypeError` or a `ValueError` is `none`, which `_tier_threshold` catches. -/
def RawValue.toInt : RawValue → Except PricingError (Option ℤ)
  | .none => .ok Option.none
  | .bool b => .ok (some (if b then 1 else 0))
  | .int n => .ok (some n)
  | .decimal q => .ok (some (truncate q))
  | .float _ value => .ok (some (truncate value))
  | .nan => .ok Option.none
  | .infinity => .error .overflow
  | .text _ asInt => .ok asInt
  | .other => .ok Option.none

def costScale : ℕ := 6
def rateScale : ℕ := 8

def quantizeCost (value : ℚ) : ℚ := quantize costScale value
def quantizeRate (value : ℚ) : ℚ := quantize rateScale value

/-! ### Usage -/

/-- The arguments of `billable_usage`: what a provider reported, and which convention it speaks. -/
structure UsageReport where
  inputTokens : ℤ
  outputTokens : ℤ
  cacheTokensIncluded : Bool
  cacheReadTokens : ℤ := 0
  cacheWriteTokens : ℤ := 0
  cacheWrite1hTokens : ℤ := 0
deriving DecidableEq

structure BillableUsage where
  totalInputTokens : ℤ
  completionTokens : ℤ
  cacheReadTokens : ℤ
  cacheWriteTokens : ℤ
  cacheWrite1hTokens : ℤ
deriving DecidableEq

def billableUsage (report : UsageReport) : BillableUsage :=
  let promptTokens := max report.inputTokens 0
  let completionTokens := max report.outputTokens 0
  let cacheRead := max report.cacheReadTokens 0
  let cacheWrite := max report.cacheWriteTokens 0
  let cacheWrite1h := min (max report.cacheWrite1hTokens 0) cacheWrite
  if !report.cacheTokensIncluded then
    { totalInputTokens := promptTokens + cacheRead + cacheWrite
      completionTokens := completionTokens
      cacheReadTokens := cacheRead
      cacheWriteTokens := cacheWrite
      cacheWrite1hTokens := cacheWrite1h }
  else if promptTokens < cacheRead + cacheWrite then
    -- contradictory: the cached tokens cannot outnumber the prompt that contains them
    { totalInputTokens := promptTokens
      completionTokens := completionTokens
      cacheReadTokens := 0
      cacheWriteTokens := 0
      cacheWrite1hTokens := 0 }
  else
    { totalInputTokens := promptTokens
      completionTokens := completionTokens
      cacheReadTokens := cacheRead
      cacheWriteTokens := cacheWrite
      cacheWrite1hTokens := cacheWrite1h }

/-! ### Rate cards -/

/-- `RATE_FIELDS`. -/
inductive RateField where
  | inputPricePerMillion
  | outputPricePerMillion
  | cacheReadPricePerMillion
  | cacheWritePricePerMillion
deriving DecidableEq

/-- One object of `pricing_tiers`: its threshold when it names one, and the rates it overrides
(`RawValue.none` for a field it does not name). -/
structure Tier where
  minInputTokens : Option RawValue
  rates : RateField → RawValue

inductive PriceUnit where
  | token | request | image | character | megapixel | second | minute | webSearch
deriving DecidableEq

/-- How a stored row spells its unit: a current name, or a plural one an older writer stored. -/
inductive UnitName where
  | current (unit : PriceUnit)
  | tokens
  | requests
  | images
deriving DecidableEq

def currentUnitName : UnitName → PriceUnit
  | .current unit => unit
  | .tokens => .token
  | .requests => .request
  | .images => .image

/-- What the core reads off a rate object with `getattr`.  `modelKey` is `none` when it is no string,
`pricingTiers` is `none` when it is no list, and an entry of it is `none` when it is no object. -/
structure Pricing where
  modelKey : Option (List Char)
  unit : Option UnitName
  rates : RateField → RawValue
  pricingTiers : Option (List (Option Tier))

/-- The rates that apply to one usage event, tiers resolved. -/
structure Rates where
  inputPricePerMillion : ℚ
  outputPricePerMillion : ℚ
  cacheReadPricePerMillion : Option ℚ
  cacheWritePricePerMillion : Option ℚ
  cacheWrite1hPricePerMillion : Option ℚ
deriving DecidableEq

/-- A tier's lower bound, or `none` when it cannot be read as one. -/
def tierThreshold (tier : Tier) : Except PricingError (Option ℤ) :=
  match tier.minInputTokens.getD (.int 0) with
  | .none => .ok (some 0)
  | raw => raw.toInt.map fun threshold => threshold.filter (0 ≤ ·)

/-- The tiers a request reaches with their thresholds, in the order the card lists them. -/
def reachedTiers (totalInputTokens : ℤ) :
    List (Option Tier) → Except PricingError (List (ℤ × Tier))
  | [] => .ok []
  | none :: tiers => reachedTiers totalInputTokens tiers
  | some tier :: tiers => do
    let threshold ← tierThreshold tier
    let reached ← reachedTiers totalInputTokens tiers
    match threshold with
    | some t => return if t ≤ totalInputTokens then (t, tier) :: reached else reached
    | none => return reached

/-- The highest threshold tier this request reaches, the first listed of equals. -/
def applicableTier (tiers : Option (List (Option Tier))) (totalInputTokens : ℤ) :
    Except PricingError (Option Tier) :=
  match tiers with
  | none => .ok none
  | some tiers => do
    let reached ← reachedTiers totalInputTokens tiers
    return (firstMax Prod.fst reached).map Prod.snd

/-- `re.compile(r"[0-9]+(?::|$)").match`, whose `$` also matches before a last newline. -/
def bedrockVersionSuffix (model : List Char) : Bool :=
  let digits := model.takeWhile (fun c => '0' ≤ c && c ≤ '9')
  let rest := model.dropWhile (fun c => '0' ≤ c && c ≤ '9')
  !digits.isEmpty && (rest.isEmpty || rest.head? == some ':' || rest == ['\n'])

/-- `"claude" in key.lower()`.  No character outside ASCII lowers to a letter of it. -/
def namesClaude (key : List Char) : Bool :=
  decide (['c', 'l', 'a', 'u', 'd', 'e'] <:+: key.map Char.toLower)

/-- Whether the card prices an Anthropic Claude model, on whichever provider serves it. -/
def isClaude (pricing : Pricing) : Bool :=
  match pricing.modelKey with
  | none => false
  | some modelKey =>
    -- `partition(":")`: what follows the first colon, when there is one
    match modelKey.dropWhile (· ≠ ':') with
    | [] => namesClaude modelKey
    | _ :: model =>
      if bedrockVersionSuffix model then namesClaude modelKey else namesClaude model

/-- The rate a field has once the tier's usable overrides are in. -/
def tieredValue (pricing : Pricing) (tier : Option Tier) (field : RateField) : Option ℚ :=
  (tier.bind fun t => toDecimal (t.rates field)).or (toDecimal (pricing.rates field))

def claude1hCacheWriteInputMultiple : ℚ := 2

/-- The rates at a tier, or at the base for `none`. -/
def ratesAt (pricing : Pricing) (tier : Option Tier) : Except PricingError Rates :=
  let values := tieredValue pricing tier
  match values .inputPricePerMillion, values .outputPricePerMillion with
  | some inputRate, some outputRate =>
    let cacheWriteRate := values .cacheWritePricePerMillion
    .ok {
      inputPricePerMillion := inputRate
      outputPricePerMillion := outputRate
      cacheReadPricePerMillion := values .cacheReadPricePerMillion
      cacheWritePricePerMillion := cacheWriteRate
      -- a write rate of zero is falsy, so a free cache write stays free on the hour too
      cacheWrite1hPricePerMillion :=
        if cacheWriteRate.getD 0 ≠ 0 ∧ isClaude pricing then
          some (inputRate * claude1hCacheWriteInputMultiple)
        else none }
  | _, _ => .error .noUsableRate

/-- The rates for a request, any threshold tier it reaches applied. -/
def effectiveRates (pricing : Pricing) (totalInputTokens : ℤ) : Except PricingError Rates := do
  let tier ← applicableTier pricing.pricingTiers totalInputTokens
  ratesAt pricing tier

/-! ### Settlement -/

def tokensPerPricingUnit : ℚ := 1000000

/-- USD for a number of tokens, or of whatever the column is per million of, at a rate. -/
def meterCost (tokens : ℚ) (rate : ℚ) : ℚ :=
  tokens * rate / tokensPerPricingUnit

inductive Meter where
  | input | output | cacheRead | cacheWrite | cacheWrite1h
deriving DecidableEq

/-- One auditable line of a row's `pricing_breakdown`. -/
structure ChargeLine where
  meter : Meter
  units : ℤ
  ratePerMillion : ℚ
  cost : ℚ
deriving DecidableEq

structure Meters where
  totalInputTokens : ℤ
  freshInputTokens : ℤ
  cacheReadTokens : ℤ
  cacheWriteTokens : ℤ
  cacheWrite1hTokens : ℤ
  completionTokens : ℤ
deriving DecidableEq

structure Priced where
  cost : ℚ
  meters : Meters
  lines : List ChargeLine
deriving DecidableEq

/-- The running total of `_price_meters`: the cost so far and the lines that explain it. -/
structure Charged where
  cost : ℚ := 0
  lines : List ChargeLine := []

/-- `charge`: the amount is added, and a line kept when there are units to explain. -/
def Charged.charge (acc : Charged) (meter : Meter) (units : ℤ) (rate : ℚ) : Charged where
  cost := acc.cost + meterCost units rate
  lines :=
    if units = 0 then acc.lines else acc.lines ++ [⟨meter, units, rate, meterCost units rate⟩]

/-- `charge` under `if rate is not None`. -/
def Charged.chargeSome (acc : Charged) (meter : Meter) (units : ℤ) : Option ℚ → Charged
  | some rate => acc.charge meter units rate
  | none => acc

/-- The 1-hour writes that have a rate of their own. -/
def oneHourWriteTokens (rates : Rates) (usage : BillableUsage) : ℤ :=
  if rates.cacheWrite1hPricePerMillion.isSome then usage.cacheWrite1hTokens else 0

/-- The input left in the fresh bucket: a cache meter with no rate leaves its tokens there. -/
def freshInputTokens (rates : Rates) (usage : BillableUsage) : ℤ :=
  usage.totalInputTokens
    - (if rates.cacheReadPricePerMillion.isSome then usage.cacheReadTokens else 0)
    - (if rates.cacheWritePricePerMillion.isSome then usage.cacheWriteTokens else 0)

/-- The charges of `_price_meters`, in its order. -/
def chargeMeters (rates : Rates) (usage : BillableUsage) : Charged :=
  let oneHour := oneHourWriteTokens rates usage
  (({} : Charged).charge .input (freshInputTokens rates usage) rates.inputPricePerMillion
    |>.charge .output usage.completionTokens rates.outputPricePerMillion
    |>.chargeSome .cacheRead usage.cacheReadTokens rates.cacheReadPricePerMillion
    |>.chargeSome .cacheWrite (usage.cacheWriteTokens - oneHour) rates.cacheWritePricePerMillion
    |>.chargeSome .cacheWrite1h oneHour rates.cacheWrite1hPricePerMillion)

def priceMeters (pricing : Pricing) (usage : BillableUsage) : Except PricingError Priced := do
  let rates ← effectiveRates pricing usage.totalInputTokens
  let charged := chargeMeters rates usage
  return {
    cost := charged.cost
    meters := {
      totalInputTokens := usage.totalInputTokens
      freshInputTokens := freshInputTokens rates usage
      cacheReadTokens := usage.cacheReadTokens
      cacheWriteTokens := usage.cacheWriteTokens
      cacheWrite1hTokens := usage.cacheWrite1hTokens
      completionTokens := usage.completionTokens }
    lines := charged.lines }

def priceBillableUsage (pricing : Pricing) (usage : BillableUsage) : Except PricingError Priced := do
  let priced ← priceMeters pricing usage
  return { priced with cost := quantizeCost priced.cost }

/-! ### The estimate -/

inductive CacheWriteTtl where
  | fiveMinutes
  | oneHour
deriving DecidableEq

def pricedPerRequest (pricing : Pricing) : Bool :=
  pricing.unit.map currentUnitName = some .request

def requestCost (pricing : Pricing) : Except PricingError ℚ :=
  match toDecimal (pricing.rates .inputPricePerMillion) with
  | some rate => .ok (meterCost 1 rate)
  | none => .error .noUsableRequestRate

/-- The cache rates a prompt token could attract on the requested TTL. -/
def cacheRates (rates : Rates) (cacheWriteTtl : Option CacheWriteTtl) : List ℚ :=
  rates.cacheReadPricePerMillion.toList
    ++ (if cacheWriteTtl.isSome then rates.cacheWritePricePerMillion.toList else [])
    ++ (if cacheWriteTtl = some .oneHour then rates.cacheWrite1hPricePerMillion.toList else [])

def dearest (rate : ℚ) (others : List ℚ) : ℚ :=
  others.foldl max rate

def estimateMeteredCost (pricing : Pricing) (estimatedInputTokens estimatedOutputTokens : ℤ)
    (cacheWriteTtl : Option CacheWriteTtl) (estimatedUnits : Option ℚ := none) :
    Except PricingError ℚ := do
  if pricedPerRequest pricing then
    return quantizeCost (← requestCost pricing)
  else
    let inputTokens := max estimatedInputTokens 0
    let rates ← effectiveRates pricing inputTokens
    match (pricing.unit.map currentUnitName).getD .token, estimatedUnits with
    | .token, _ | _, none =>
      let outputTokens := max estimatedOutputTokens 0
      let perInputTokenRate := dearest rates.inputPricePerMillion (cacheRates rates cacheWriteTtl)
      return quantizeCost
        (meterCost inputTokens perInputTokenRate
          + meterCost outputTokens rates.outputPricePerMillion)
    | _, some units =>
      -- one quantity cannot say which side it is on, so the output rate is a candidate too
      return quantizeCost
        (meterCost (max units 0)
          (dearest rates.inputPricePerMillion
            (rates.outputPricePerMillion :: cacheRates rates cacheWriteTtl)))

end Otari.Metered

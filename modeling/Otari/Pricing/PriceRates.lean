import Otari.Pricing.Rows
import Otari.Pricing.UsagePricing
import Otari.Pricing.CostBlock

/-!
# Pricing — PriceRates — a rate as a `cost` block, and the six columns as its text view

`types/price_rates.py`: the block that says what six columns say (`ratesFromColumns`), the block a
column write leaves of an older one (`ratesWithColumns`), the columns read out of any block
(`columnsFromRates`); and the hook of `models/pricing.py` that keeps a row's two sides one
(`beforeUpdate`).

A tier's rates are JSON floats: `narrow` is what a float shows of a decimal.
-/

namespace Otari.PriceRates
open Documents Rounding
open Metered (PriceUnit Direction pricePer)
open Otari.Pricing (RateColumns PricingTier)

/-! ### Units and slots -/

def unitName : PriceUnit → String
  | .token => "token"
  | .request => "request"
  | .image => "image"
  | .character => "character"
  | .megapixel => "megapixel"
  | .second => "second"
  | .minute => "minute"
  | .webSearch => "web_search"

/-- `PRICE_UNITS`. -/
def priceUnits : List PriceUnit :=
  [.token, .request, .image, .character, .megapixel, .second, .minute, .webSearch]

def unitNamed (name : String) : Option PriceUnit :=
  priceUnits.find? fun unit => unitName unit = name

/-- `_Slot`: where a unit's column rates sit in a block, `none` being the `web_search` field. -/
structure Slot where
  modality : Option String
  given : Direction
  made : Option Direction
deriving DecidableEq

def textSlot : Slot := ⟨some "text", .input, some .output⟩
def imageSlot : Slot := ⟨some "image", .output, none⟩
def audioSlot : Slot := ⟨some "audio", .input, some .output⟩
def videoSlot : Slot := ⟨some "video", .output, none⟩
def searchSlot : Slot := ⟨none, .input, none⟩

/-- `_SLOTS`: the slot a rate given as columns is written into. -/
def slots : PriceUnit → Slot
  | .token | .character | .request => textSlot
  | .image | .megapixel => imageSlot
  | .second | .minute => audioSlot
  | .webSearch => searchSlot

/-- `_READ_ORDER`. -/
def readOrder : List Slot := [textSlot, imageSlot, audioSlot, videoSlot, searchSlot]

/-- `PRICE_PER` over a million: what a column is multiplied by to be a published price. -/
def published (unit : PriceUnit) : ℚ := pricePer unit / 1000000

def directionName : Direction → String
  | .input => "input"
  | .output => "output"

/-! ### From columns to a block -/

/-- `_cache`. -/
def columnCache (read write : Option ℚ) (per : ℚ) : Option CachePrices :=
  match read, write with
  | none, none => none
  | read, write => some { read := read.map (· * per), write := write.map (· * per) }

/-- `{"context": {"gte": threshold}}`. -/
def fromContext (threshold : ℤ) : Fields :=
  [("context", .obj [("gte", .num threshold)])]

def givenOverride (per : ℚ) (tier : PricingTier) : Option Override :=
  let cache := columnCache tier.cacheReadPricePerMillion tier.cacheWritePricePerMillion per
  let price := tier.inputPricePerMillion.map (· * per)
  if price.isSome ∨ cache.isSome then
    some { when := fromContext tier.minInputTokens, price := price, cache := cache }
  else none

def madeOverride (per : ℚ) (tier : PricingTier) : Option Override :=
  tier.outputPricePerMillion.map fun output =>
    { when := fromContext tier.minInputTokens, price := some (output * per) }

def givenPrice (columns : RateColumns) : UnitPrice :=
  let per := published columns.unit
  { price := some (columns.inputPricePerMillion * per)
    unit := some (unitName columns.unit)
    cache := columnCache columns.cacheReadPricePerMillion columns.cacheWritePricePerMillion per
    overrides := columns.pricingTiers.filterMap (givenOverride per) }

def madePrice (columns : RateColumns) : UnitPrice :=
  let per := published columns.unit
  { price := some (columns.outputPricePerMillion * per)
    unit := some (unitName columns.unit)
    overrides := columns.pricingTiers.filterMap (madeOverride per) }

/-- The price a slot's columns put in one direction. -/
def priceInto (slot : Slot) (columns : RateColumns) (direction : Direction) : Option UnitPrice :=
  if slot.made = some direction then some (madePrice columns)
  else if slot.given = direction then some (givenPrice columns)
  else none

def pricingFromColumns (columns : RateColumns) : Pricing :=
  let slot := slots columns.unit
  match slot.modality with
  | none => { modalities := [], webSearch := some (givenPrice columns) }
  | some modality =>
    { modalities := [(modality,
        { input := priceInto slot columns .input, output := priceInto slot columns .output })] }

/-- The `cost` block that says what `columns` say, in the slot the unit chooses. -/
def ratesFromColumns (columns : RateColumns) : Fields :=
  pricingDocument (pricingFromColumns columns)

/-! ### From a block to columns -/

inductive RatesError where
  /-- `rates cannot be read: …`. -/
  | unreadable (issues : List Note)
  /-- `rates name a unit not known here: …`. -/
  | unknownUnits (units : List String)
  /-- `rates price {modality} input and output in different units`. -/
  | differentUnits (modality : Option String)
  /-- `a rate of {price} per unit does not fit a rate column`. -/
  | doesNotFit (price : ℚ)
  /-- `a rate of {price} per unit is too small for a rate column …`. -/
  | tooSmall (price : ℚ)
  /-- `rates price nothing a rate column can hold: …`. -/
  | pricesNothing
  /-- `AttributeError`, from a price that is no object. -/
  | notAnObject

def columnPlaces : ℕ := 8
def columnLimit : ℚ := 10 ^ 10

/-- A published price as a per-million column, rounded as the column is. -/
def column (per : ℚ) : Option ℚ → Except RatesError (Option ℚ)
  | none => .ok none
  | some price =>
    let column := quantizeEven columnPlaces (price / per)
    if ¬ (0 ≤ column ∧ column < columnLimit) then .error (.doesNotFit price)
    else if column = 0 ∧ 0 < price then .error (.tooSmall price)
    else .ok (some column)

def tierColumns (narrow : ℚ → ℚ) (per : ℚ) (tier : ℤ × Rates) : Except RatesError PricingTier := do
  let input ← column per tier.2.input
  let output ← column per tier.2.output
  let cacheRead ← column per tier.2.cacheRead
  let cacheWrite ← column per tier.2.cacheWrite
  return {
    minInputTokens := tier.1
    inputPricePerMillion := input.map narrow
    outputPricePerMillion := output.map narrow
    cacheReadPricePerMillion := cacheRead.map narrow
    cacheWritePricePerMillion := cacheWrite.map narrow }

/-- `_columns`. -/
def columnsOf (narrow : ℚ → ℚ) (cost : Cost) (unit : PriceUnit) : Except RatesError RateColumns := do
  let per := published unit
  let input ← column per cost.rates.input
  let output ← column per cost.rates.output
  let cacheRead ← column per cost.rates.cacheRead
  let cacheWrite ← column per cost.rates.cacheWrite
  let tiers ← cost.tiers.mapM (tierColumns narrow per)
  return {
    inputPricePerMillion := input.getD 0
    outputPricePerMillion := output.getD 0
    cacheReadPricePerMillion := cacheRead
    cacheWritePricePerMillion := cacheWrite
    pricingTiers := tiers
    unit := unit }

/-- `getattr(prices, direction)`. -/
def ModalityCost.price (prices : ModalityCost) : Direction → Option UnitPrice
  | .input => prices.input
  | .output => prices.output

/-- `_prices_in`. -/
def pricesIn (pricing : Pricing) (slot : Slot) : Option UnitPrice × Option UnitPrice :=
  match slot.modality with
  | none => (pricing.webSearch, none)
  | some modality =>
    match get pricing.modalities modality with
    | none => (none, none)
    | some prices => (prices.price slot.given, slot.made.bind prices.price)

/-- `_unit_of`. -/
def unitOf (price : UnitPrice) : String := price.unit.getD "token"

/-- A price that names a unit, holds a price or holds a cache price is in a unit. -/
def UnitPrice.inUnit (price : UnitPrice) : Bool :=
  price.price.isSome || price.unit.isSome || price.cache.isSome

def present (prices : Option UnitPrice × Option UnitPrice) : List UnitPrice :=
  prices.1.toList ++ prices.2.toList

/-- The columns of the first slot that is priced. -/
def columnsOfSlots (narrow : ℚ → ℚ) (pricing : Pricing) :
    List Slot → Except RatesError RateColumns
  | [] => .error .pricesNothing
  | slot :: rest =>
    let prices := pricesIn pricing slot
    match (present prices).filter (·.price.isSome) with
    | [] => columnsOfSlots narrow pricing rest
    | first :: _ =>
      if ((present prices).filter UnitPrice.inUnit).any (unitOf · ≠ unitOf first) then
        .error (.differentUnits slot.modality)
      else
        match unitNamed (unitOf first) with
        | some unit => columnsOf narrow (directionCost prices.1 prices.2) unit
        -- `assert unit in PRICE_UNITS`
        | none => .error (.unknownUnits [unitOf first])

def columnsFromPricing (narrow : ℚ → ℚ) (pricing : Pricing) : Except RatesError RateColumns :=
  columnsOfSlots narrow pricing readOrder

def Note.isIssue : Note → Bool
  | .issue _ _ => true
  | .unknownUnit _ => false

def Note.unit? : Note → Option String
  | .issue _ _ => none
  | .unknownUnit unit => some unit

/-- A block as `parse_pricing` reads it, its units being `PRICE_UNITS`. -/
def readRates (document : Fields) : Read Pricing :=
  parsePricing (priceUnits.map unitName) document "rates"

/-- The six columns a `cost` block gives. -/
def columnsFromRates (narrow : ℚ → ℚ) (document : Fields) : Except RatesError RateColumns :=
  let read := readRates document
  if read.notes.any Note.isIssue then .error (.unreadable (read.notes.filter Note.isIssue))
  else if read.notes ≠ [] then .error (.unknownUnits (read.notes.filterMap Note.unit?).dedup)
  else columnsFromPricing narrow read.value

/-! ### A column write on a block -/

/-- Python's truth of a JSON value. -/
def truthy : Json → Bool
  | .null => false
  | .bool b => b
  | .num q => q ≠ 0
  | .str s => s ≠ ""
  | .arr items => !items.isEmpty
  | .obj fields => !fields.isEmpty

/-- `price.get("unit") or "token"`. -/
def documentUnit (price : Fields) : Json :=
  match get price "unit" with
  | some unit => if truthy unit then unit else .str "token"
  | none => .str "token"

/-- Whether two units are spelled alike; a value that is no string is no unit. -/
def sameUnit : Json → Json → Bool
  | .str a, .str b => a = b
  | _, _ => false

/-- `_on_context`. -/
def onContext (override : Fields) : Bool :=
  match get override "when" with
  | some (.obj when') => namesContext when'
  | _ => false

/-- The entries of `price.get("cache") or {}`. -/
def cacheEntries (price : Fields) : Except RatesError Fields :=
  match get price "cache" with
  | some (.obj cache) => .ok cache
  | some other => if truthy other then .error .notAnObject else .ok []
  | none => .ok []

/-- The items of `price.get("overrides") or []` that are not on context. -/
def overridesOffContext (price : Fields) : Except RatesError (List Json) :=
  match get price "overrides" with
  | some (.arr items) =>
    if items.all fun | .obj _ => true | _ => false then
      .ok (items.filter fun | .obj o => !onContext o | _ => false)
    else .error .notAnObject
  | some other => if truthy other then .error .notAnObject else .ok []
  | none => .ok []

/-- The items of the overrides the columns give. -/
def overridesOf (fresh : Fields) : List Json :=
  match get fresh "overrides" with
  | some (.arr items) => items
  | _ => []

def cacheOf (fresh : Fields) : Fields :=
  match get fresh "cache" with
  | some (.obj cache) => cache
  | _ => []

/-- What `_merged_price` makes of two prices in one unit. -/
def rewrittenPrice (old fresh : Fields) : Except RatesError Fields := do
  let oldCache ← cacheEntries old
  let kept ← overridesOffContext old
  let cache := update (without ["read", "write"] oldCache) (cacheOf fresh)
  let overrides := kept ++ overridesOf fresh
  let merged := setSome (setSome (without ["price", "unit"] old)
    "price" (get fresh "price")) "unit" (get fresh "unit")
  let merged := setSome (without ["cache"] merged) "cache" (nonempty cache)
  return setSome (without ["overrides"] merged) "overrides"
    (if overrides = [] then none else some (.arr overrides))

/-- `_merged_price`: `old` with what the columns say rewritten. -/
def mergedPrice (old : Option Json) (fresh : Fields) : Except RatesError Fields :=
  match old with
  | none => .ok fresh
  | some (.obj old) =>
    if old = [] ∨ !sameUnit (documentUnit old) (documentUnit fresh) then .ok fresh
    else rewrittenPrice old fresh
  | some other => if truthy other then .error .notAnObject else .ok fresh

/-- The directions of a modality, each merged with what was there. -/
def mergedDirections (kept : Fields) : Fields → Except RatesError Fields
  | [] => .ok kept
  | (direction, .obj price) :: rest => do
    let merged ← mergedPrice (get kept direction) price
    mergedDirections (set kept direction (.obj merged)) rest
  | _ :: _ => .error .notAnObject

def objectUnder (block : Fields) (key : String) : Fields :=
  match get block key with
  | some (.obj fields) => fields
  | _ => []

/-- One entry of `fresh` merged into the block. -/
def mergedEntry (block merged : Fields) : String × Json → Except RatesError Fields
  | (key, .obj prices) =>
    if key = "web_search" then do
      let old := match get block key with
        | some (.obj fields) => some (Json.obj fields)
        | _ => none
      return set merged key (.obj (← mergedPrice old prices))
    else do
      return set merged key (.obj (← mergedDirections (objectUnder block key) prices))
  | _ => .error .notAnObject

/-- `block` with each entry of `fresh` merged into it. -/
def mergedBlock (block fresh : Fields) : Except RatesError Fields :=
  fresh.foldlM (mergedEntry block) block

/-- Whether `read` is `columns` as far as a merge asks: the four rates and the unit. -/
def readsBack (read columns : RateColumns) : Bool :=
  read.inputPricePerMillion = columns.inputPricePerMillion ∧
    read.outputPricePerMillion = columns.outputPricePerMillion ∧
    read.cacheReadPricePerMillion = columns.cacheReadPricePerMillion ∧
    read.cacheWritePricePerMillion = columns.cacheWritePricePerMillion ∧
    read.unit = columns.unit

/-- `block` with the slot `columns`' unit chooses rewritten from them, and every other price kept. -/
def ratesWithColumns (narrow : ℚ → ℚ) (block : Option Fields) (columns : RateColumns) :
    Except RatesError Fields :=
  let fresh := ratesFromColumns columns
  match block with
  | none | some [] => .ok fresh
  | some block => do
    let merged ← mergedBlock block fresh
    match columnsFromRates narrow merged with
    | .error _ => return fresh
    | .ok read => return if readsBack read columns then merged else fresh

/-! ### The row -/

/-- The two sides of a price row. -/
structure PriceRow where
  columns : RateColumns
  rates : Option Fields

/-- `_before_update`: the side a writer moved rewrites the other, and a writer that moved both is
believed. -/
def beforeUpdate (narrow : ℚ → ℚ) (ratesMoved columnsMoved : Bool) (row : PriceRow) :
    Except RatesError PriceRow :=
  if ratesMoved && !columnsMoved then
    match row.rates with
    | some rates => do return { row with columns := ← columnsFromRates narrow rates }
    -- `parse_pricing` of no object
    | none => .error .notAnObject
  else if columnsMoved && !ratesMoved then do
    return { row with rates := some (← ratesWithColumns narrow row.rates row.columns) }
  else .ok row

end Otari.PriceRates

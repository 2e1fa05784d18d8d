import Otari.Support.Json

/-!
# Pricing — CostBlock — a `cost` block and its reader

`types/models_dev.py`: the typed form of a v2 `cost` block (`Pricing`), the reader that makes it from
a document and notes what it cannot read (`parsePricing`), the document it is written as
(`pricingDocument`), and the rates and context tiers of one pair of prices (`directionCost`).

A number of a document is a `Decimal` or a finite float, and is kept as the rational its text shows.
What the reader notes is kept as the path and the type it expected.
-/

namespace Otari.PriceRates
open Documents

/-! ### Typed prices -/

/-- `ModelsDevCachePrices`. -/
structure CachePrices where
  read : Option ℚ := none
  write : Option ℚ := none
  writeTtls : List (String × ℚ) := []
  storage : Option ℚ := none

/-- `ModelsDevOverride`: the prices that replace the base ones when a condition holds. -/
structure Override where
  when : Fields
  price : Option ℚ := none
  reasoning : Option ℚ := none
  cache : Option CachePrices := none
  explicitCache : Option CachePrices := none

/-- `ModelsDevUnitPrice`: one price of a block, in the unit the document names. -/
structure UnitPrice where
  price : Option ℚ
  unit : Option String := none
  reasoning : Option ℚ := none
  cache : Option CachePrices := none
  explicitCache : Option CachePrices := none
  overrides : List Override := []

structure ModalityCost where
  input : Option UnitPrice := none
  output : Option UnitPrice := none

structure Multiplier where
  when : Fields
  factor : Json

/-- `ModelsDevPricing`. -/
structure Pricing where
  modalities : List (String × ModalityCost)
  webSearch : Option UnitPrice := none
  multipliers : List Multiplier := []

/-! ### The reader -/

abbrev Path := List String

/-- What `_Reader` notes. -/
inductive Note where
  /-- `{path}: expected {what}`. -/
  | issue (path : Path) (what : String)
  | unknownUnit (unit : String)

abbrev Read := Noted Note

/-- `_number`. -/
def number : Json → Option ℚ
  | .num q => some q
  | _ => none

def mapping (raw : Fields) (name : String) (path : Path) : Read (Option Fields) :=
  match get raw name with
  | none | some .null => pure none
  | some (.obj fields) => pure (some fields)
  | some _ => .note (.issue (path ++ [name]) "an object") none

/-- `text`: an empty string is none. -/
def text (raw : Fields) (name : String) (path : Path) : Read (Option String) :=
  match get raw name with
  | none | some .null => pure none
  | some (.str s) => pure (if s = "" then none else some s)
  | some _ => .note (.issue (path ++ [name]) "a string") none

def price (raw : Fields) (name : String) (path : Path) : Read (Option ℚ) :=
  match get raw name with
  | none | some .null => pure none
  | some (.num q) => pure (some q)
  | some _ => .note (.issue (path ++ [name]) "a number") none

def condition (raw : Fields) (path : Path) : Read (Option Fields) :=
  match get raw "when" with
  | some (.obj fields) => pure (some fields)
  | _ => .note (.issue (path ++ ["when"]) "an object") none

/-- `{name}[{n}]`. -/
def indexed (name : String) (n : ℕ) : String := name ++ "[" ++ toString n ++ "]"

def objectAt {α : Type} (f : Fields → Path → Read (Option α)) (name : String) (path : Path)
    (item : Json × ℕ) : Read (Option α) :=
  match item.1 with
  | .obj fields => f fields (path ++ [indexed name item.2])
  | _ => .note (.issue (path ++ [indexed name item.2]) "an object") none

/-- `objects`, each read as it comes. -/
def objects {α : Type} (raw : Fields) (name : String) (path : Path)
    (f : Fields → Path → Read (Option α)) : Read (List α) :=
  match get raw name with
  | none | some .null => pure []
  | some (.arr items) => do
    let read ← Noted.each (objectAt f name path) items.zipIdx
    return read.reduceOption
  | some _ => .note (.issue (path ++ [name]) "a list") []

/-- One TTL of a `write` object. -/
def writeTtl (path : Path) (entry : String × Json) : Read (Option (String × ℚ)) :=
  match number entry.2 with
  | some q => pure (some (entry.1, q))
  | none => .note (.issue (path ++ ["write", entry.1]) "a number") none

/-- The write price a v1 reader has, and every TTL. -/
def cacheWrites (cache : Fields) (path : Path) : Read (Option ℚ × List (String × ℚ)) :=
  match get cache "write" with
  | some (.obj entries) => do
    let ttls ← Noted.each (writeTtl path) entries
    return (ttls.head?.join.map Prod.snd, ttls.reduceOption)
  | _ => do return (← price cache "write" path, [])

def cachePrices (cache : Fields) (path : Path) : Read CachePrices := do
  let write ← cacheWrites cache path
  let read ← price cache "read" path
  let storage ← price cache "storage" path
  return { read := read, write := write.1, writeTtls := write.2, storage := storage }

/-- `cache`: a `cache` block, and the `explicit` block in it. -/
def caches (raw : Fields) (path : Path) : Read (Option CachePrices × Option CachePrices) := do
  let cache ← mapping raw "cache" path
  match cache with
  | none => return (none, none)
  | some cache =>
    let path := path ++ ["cache"]
    let explicit ← mapping cache "explicit" path
    let prices ← cachePrices cache path
    let explicitly ← Noted.optional (fun fields => cachePrices fields (path ++ ["explicit"])) explicit
    return (some prices, explicitly)

def override (raw : Fields) (path : Path) : Read (Option Override) := do
  let when' ← condition raw path
  let base ← price raw "price" path
  let reasoning ← price raw "reasoning" path
  let cache ← caches raw path
  return when'.map fun when' =>
    { when := when', price := base, reasoning := reasoning, cache := cache.1,
      explicitCache := cache.2 }

/-- A unit the caller does not know is noted, and kept. -/
def noteUnit (units : List String) (unit : Option String) : Read Unit :=
  match unit with
  | some unit => if unit ∈ units then pure () else .note (.unknownUnit unit) ()
  | none => pure ()

def unitPrice (units : List String) (path : Path) (entry : Fields) : Read UnitPrice := do
  let base ← price entry "price" path
  let reasoning ← price entry "reasoning" path
  let cache ← caches entry path
  let overrides ← objects entry "overrides" path override
  let unit ← text entry "unit" path
  let _ ← noteUnit units unit
  return { price := base, unit := unit, reasoning := reasoning, cache := cache.1,
           explicitCache := cache.2, overrides := overrides }

def unitPriceAt (units : List String) (raw : Fields) (name : String) (path : Path) :
    Read (Option UnitPrice) := do
  let entry ← mapping raw name path
  Noted.optional (unitPrice units (path ++ [name])) entry

def multiplier (raw : Fields) (path : Path) : Read (Option Multiplier) := do
  let when' ← condition raw path
  match get raw "factor" with
  | some (.obj fields) => return when'.map fun when' => ⟨when', .obj fields⟩
  | some (.num q) => return when'.map fun when' => ⟨when', .num q⟩
  | _ => .note (.issue (path ++ ["factor"]) "a number or an object") none

def modality (units : List String) (path : Path) (entry : String × Json) :
    Read (Option (String × ModalityCost)) :=
  match entry.2 with
  | .obj prices => do
    let input ← unitPriceAt units prices "input" (path ++ [entry.1])
    let output ← unitPriceAt units prices "output" (path ++ [entry.1])
    return some (entry.1, { input := input, output := output })
  | _ => .note (.issue (path ++ [entry.1]) "an object") none

/-- The keys of a block that are no modality. -/
def besideModalities : List String := ["web_search", "multipliers"]

/-- `cost_v2`: each key but `web_search` and `multipliers` is a modality. -/
def costV2 (units : List String) (cost : Fields) (path : Path) : Read Pricing := do
  let modalities ← Noted.each (modality units path) (without besideModalities cost)
  let multipliers ← objects cost "multipliers" path multiplier
  let webSearch ← unitPriceAt units cost "web_search" path
  return { modalities := modalities.reduceOption, webSearch := webSearch,
           multipliers := multipliers }

def parsePricing (units : List String) (raw : Fields) (path : String) : Read Pricing :=
  costV2 units raw [path]

/-! ### The document -/

/-- A field of a document, where there is something to say. -/
def field (name : String) (value : Option Json) : Fields :=
  (value.map fun value => (name, value)).toList

def nonempty : Fields → Option Json
  | [] => none
  | fields => some (.obj fields)

def cacheDocument : Option CachePrices → Fields
  | none => []
  | some cache =>
    field "read" (cache.read.map .num)
      ++ (if cache.writeTtls = [] then field "write" (cache.write.map .num)
          else [("write", .obj (cache.writeTtls.map fun ttl => (ttl.1, .num ttl.2)))])
      ++ field "storage" (cache.storage.map .num)

def cachesDocument (cache explicit : Option CachePrices) : Fields :=
  cacheDocument cache ++ field "explicit" (explicit.map fun e => .obj (cacheDocument (some e)))

def overrideDocument (override : Override) : Fields :=
  [("when", .obj override.when)]
    ++ field "price" (override.price.map .num)
    ++ field "reasoning" (override.reasoning.map .num)
    ++ field "cache" (nonempty (cachesDocument override.cache override.explicitCache))

def unitPriceDocument (price : UnitPrice) : Fields :=
  field "price" (price.price.map .num)
    ++ field "unit" (price.unit.map .str)
    ++ field "reasoning" (price.reasoning.map .num)
    ++ field "cache" (nonempty (cachesDocument price.cache price.explicitCache))
    ++ (if price.overrides = [] then []
        else [("overrides", .arr (price.overrides.map fun o => .obj (overrideDocument o)))])

def modalityDocument (prices : ModalityCost) : Fields :=
  field "input" (prices.input.map fun p => .obj (unitPriceDocument p))
    ++ field "output" (prices.output.map fun p => .obj (unitPriceDocument p))

def multiplierDocument (m : Multiplier) : Fields :=
  [("when", .obj m.when), ("factor", m.factor)]

/-- A `cost` block as the document writes it. -/
def pricingDocument (pricing : Pricing) : Fields :=
  (pricing.modalities.map fun entry => (entry.1, .obj (modalityDocument entry.2)))
    ++ field "web_search" (pricing.webSearch.map fun p => .obj (unitPriceDocument p))
    ++ (if pricing.multipliers = [] then []
        else [("multipliers", .arr (pricing.multipliers.map fun m => .obj (multiplierDocument m)))])

/-! ### One pair of prices -/

/-- `ModelsDevRates`. -/
structure Rates where
  input : Option ℚ := none
  output : Option ℚ := none
  cacheRead : Option ℚ := none
  cacheWrite : Option ℚ := none

/-- `ModelsDevCost`: the base rates, and the rates that apply from each size of the context. -/
structure Cost where
  rates : Rates
  tiers : List (ℤ × Rates)

/-- `_tier_size`: a positive whole number. -/
def tierSize : Json → Option ℤ
  | .num q => if 0 < q ∧ q.den = 1 then some q.num else none
  | _ => none

def namesContext (when' : Fields) : Bool :=
  when'.map Prod.fst ≠ [] ∧ ∀ key ∈ when'.map Prod.fst, key = "context"

/-- `_context_size`: where a tier starts, for a condition on context alone. -/
def contextSize (when' : Fields) : Option ℤ :=
  if namesContext when' then
    match get when' "context" with
    | some (.obj context) =>
      match get context "gt" with
      | none | some .null => (get context "gte").bind tierSize
      | some bound => tierSize bound
    | _ => none
  else none

/-- `_cache_write`: the default TTL's price, else the explicit cache's. -/
def cacheWrite (cache explicit : Option CachePrices) : Option ℚ :=
  (cache.bind (·.write)).or (explicit.bind (·.write))

/-- `tiers.setdefault(size, base)[…] = …`. -/
def replaceAt (base : Rates) (size : ℤ) (f : Rates → Rates) (tiers : List (ℤ × Rates)) :
    List (ℤ × Rates) :=
  if size ∈ tiers.map Prod.fst then
    tiers.map fun tier => if tier.1 = size then (tier.1, f tier.2) else tier
  else tiers ++ [(size, f base)]

/-- What an override of the first price replaces. -/
def replaceGiven (override : Override) (rates : Rates) : Rates where
  input := override.price.or rates.input
  output := rates.output
  cacheRead := (override.cache.bind (·.read)).or rates.cacheRead
  cacheWrite := (cacheWrite override.cache override.explicitCache).or rates.cacheWrite

/-- What an override of the second price replaces. -/
def replaceMade (override : Override) (rates : Rates) : Rates :=
  { rates with output := override.price.or rates.output }

def addTier (base : Rates) (f : Override → Rates → Rates) (tiers : List (ℤ × Rates))
    (override : Override) : List (ℤ × Rates) :=
  match contextSize override.when with
  | some size => replaceAt base size (f override) tiers
  | none => tiers

/-- `direction_cost`: the rates of one price pair, and its overrides on context as tiers, each
starting from the base prices. -/
def directionCost (given made : Option UnitPrice) : Cost :=
  let base : Rates := { input := given.bind (·.price), output := made.bind (·.price) }
  let tiers := ((given.map (·.overrides)).getD []).foldl (addTier base replaceGiven) []
  { rates :=
      { base with
        cacheRead := (given.bind (·.cache)).bind (·.read)
        cacheWrite := given.bind fun given => cacheWrite given.cache given.explicitCache }
    tiers := ((made.map (·.overrides)).getD []).foldl (addTier base replaceMade) tiers }

end Otari.PriceRates

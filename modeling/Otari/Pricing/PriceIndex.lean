import Otari.Pricing.Rows

/-!
# Pricing — PriceIndex — the price index over a models.dev catalog

`services/pricing/models_dev_index.py`: the index of a catalog's listings (`ModelsDevPriceIndex`),
and the listing that prices a model as a provider serves it (`resolve`).

Text is a list of characters.  `casefold` is `str.casefold`, `digit` is `\d` of a regular
expression, and a price block is anything that compares.  A listing's names, doc link and context
window, which no lookup reads, are left out.
-/

namespace Otari.PriceIndex

abbrev Text := List Char

/-! ### Listings -/

/-- `PriceTier`. -/
structure PriceTier where
  minInputTokens : ℕ
  input : Option ℚ := none
  output : Option ℚ := none
  cacheRead : Option ℚ := none
  cacheWrite : Option ℚ := none
deriving DecidableEq

/-- What a price signature reads of `slot_columns`. -/
structure SlotColumns where
  unit : Text
  inputPricePerMillion : Option ℚ
  outputPricePerMillion : Option ℚ
deriving DecidableEq

/-- `ModelsDevPrice`, with its price block of type `β`. -/
structure ModelsDevPrice (β : Type) where
  providerId : Text
  modelId : Text
  input : Option ℚ := none
  output : Option ℚ := none
  cacheRead : Option ℚ := none
  cacheWrite : Option ℚ := none
  tiers : List PriceTier := []
  canonicalModelId : Option Text := none
  pricing : Option β := none
  slotColumns : Option SlotColumns := none
deriving DecidableEq

variable {β : Type}

namespace ModelsDevPrice

/-- What `reference` spells: the provider and the model. -/
def reference (price : ModelsDevPrice β) : Text × Text := (price.providerId, price.modelId)

def priced (price : ModelsDevPrice β) : Bool :=
  price.input.isSome || price.output.isSome || price.slotColumns.isSome

/-- `price_signature`. -/
structure Signature where
  input : Option ℚ
  output : Option ℚ
  cacheRead : Option ℚ
  cacheWrite : Option ℚ
  tiers : List PriceTier
  inSlot : Option SlotColumns
deriving DecidableEq

def priceSignature (price : ModelsDevPrice β) : Signature where
  input := price.input
  output := price.output
  cacheRead := price.cacheRead
  cacheWrite := price.cacheWrite
  tiers := price.tiers
  inSlot := price.slotColumns

end ModelsDevPrice

/-! ### Names -/

def bedrockProviderId : Text := "amazon-bedrock".toList

def bedrockGeoPrefixes : List Text :=
  ["us", "eu", "global", "apac", "jp", "au"].map String.toList

def modelsDevProviderIds : List (Text × Text) :=
  [("fireworks", "fireworks-ai"), ("gemini", "google"), ("vertexai", "google-vertex"),
    ("vertexaianthropic", "google-vertex-anthropic"), ("bedrock", "amazon-bedrock"),
    ("together", "togetherai"), ("moonshot", "moonshotai"), ("azureopenai", "azure"),
    ("github", "github-copilot"), ("gmi", "gmicloud"), ("qiniu", "qiniu-ai")].map
    fun entry => (entry.1.toList, entry.2.toList)

/-- `models_dev_provider_id`. -/
def providerIdOf (providerType : Text) : Text :=
  (modelsDevProviderIds.lookup providerType).getD providerType

/-- `models_dev_provider_ids`. -/
def providerIdsOf (providerType : Text) : List Text :=
  if providerIdOf providerType = "google-vertex-anthropic".toList then
    [providerIdOf providerType, "google-vertex".toList]
  else [providerIdOf providerType]

/-- `_HF_BACKEND_PROVIDER_IDS.get(backend, (backend,))`. -/
def hfBackendProviderIds (backend : Text) : List Text :=
  if backend = "together".toList then ["togetherai".toList]
  else if backend = "novita".toList then ["novita-ai".toList]
  else if backend = "ovh".toList then ["ovhcloud".toList]
  else if backend = "nebius".toList then ["nebius".toList, "nebius-ai-studio".toList]
  else [backend]

/-- `_split_geo`. -/
def splitGeo (model : Text) : Text × Text :=
  match bedrockGeoPrefixes.find? fun geo => (geo ++ ['.']).isPrefixOf model with
  | some geo => (geo, model.drop (geo.length + 1))
  | none => ([], model)

def defaultSuffixes : List Text := ["-v1:0".toList, ":0".toList]

/-- `_strip_suffix`. -/
def stripSuffix (model : Text) : Text :=
  match defaultSuffixes.find? fun suffix => suffix.isSuffixOf model with
  | some suffix => model.take (model.length - suffix.length)
  | none => model

/-- `_BEDROCK_VERSION_SUFFIX.search(name)`: the name ends in digits after `:` or `-v`.  A `$` also
matches before a newline at the end. -/
def hasVersionSuffix (digit : Char → Bool) (name : Text) : Bool :=
  let ending := match name.reverse with
    | '\n' :: rest => rest
    | ending => ending
  ending.head?.any digit &&
    match ending.dropWhile digit with
    | ':' :: _ => true
    | 'v' :: '-' :: _ => true
    | _ => false

/-- `_name_variants`. -/
def nameVariants (digit : Char → Bool) (name : Text) : List Text :=
  if hasVersionSuffix digit name then
    if stripSuffix name = name then [name] else [name, stripSuffix name]
  else name :: defaultSuffixes.map (name ++ ·)

/-- The loop of `_vendor_prefixed`, with the text since the last dot. -/
def dotBoundaries (head : Text) : Text → List (Text × Text)
  | [] => []
  | c :: rest =>
    if c = '.' then if rest = [] then [] else (head, rest) :: dotBoundaries [] rest
    else dotBoundaries (head ++ [c]) rest

/-- `_vendor_prefixed`. -/
def vendorPrefixed (model : Text) : List (Text × Text) := dotBoundaries [] model

/-- The text before and after the last separator, where there is one (`rsplit`, `rpartition`). -/
def splitLast (separator : Char) (text : Text) : Option (Text × Text) :=
  if separator ∈ text then
    some ((text.reverse.dropWhile (· ≠ separator)).tail.reverse,
      (text.reverse.takeWhile (· ≠ separator)).reverse)
  else none

/-- `text.rpartition("/")[2]`. -/
def tailOf (text : Text) : Text := ((splitLast '/' text).map Prod.snd).getD text

/-- `text.partition("/")[0]`. -/
def vendorOf (text : Text) : Text := text.takeWhile (· ≠ '/')

/-! ### The index -/

/-- The dictionaries of an index; `known` is membership in `_by_provider`. -/
structure ModelsDevPriceIndex (β : Type) where
  known : Text → Bool := fun _ => false
  byProvider : Text → Text → Option (ModelsDevPrice β) := fun _ _ => none
  byModelId : Text → List (ModelsDevPrice β) := fun _ => []
  byCanonical : Text → List (ModelsDevPrice β) := fun _ => []

section
variable (casefold : Text → Text) (digit : Char → Bool)

/-- The keys an entry is listed under by its canonical id. -/
def canonicalKeys (entry : ModelsDevPrice β) : List Text :=
  match entry.canonicalModelId with
  | none | some [] => []
  | some canonical =>
    if casefold (tailOf canonical) = casefold canonical then [casefold canonical]
    else [casefold canonical, casefold (tailOf canonical)]

/-- `setdefault(key, []).append(entry)`. -/
def appendTo (lists : Text → List (ModelsDevPrice β)) (key : Text) (entry : ModelsDevPrice β) :
    Text → List (ModelsDevPrice β) :=
  Function.update lists key (lists key ++ [entry])

namespace ModelsDevPriceIndex

/-- One turn of the loop of `__init__`. -/
def add (index : ModelsDevPriceIndex β) (entry : ModelsDevPrice β) : ModelsDevPriceIndex β where
  known := Function.update index.known entry.providerId true
  byProvider := Function.update index.byProvider entry.providerId
    (Function.update (index.byProvider entry.providerId) entry.modelId (some entry))
  byModelId := appendTo index.byModelId (casefold entry.modelId) entry
  byCanonical := (canonicalKeys casefold entry).foldl (fun lists key => appendTo lists key entry)
    index.byCanonical

/-- `__init__`. -/
def ofEntries (entries : List (ModelsDevPrice β)) : ModelsDevPriceIndex β :=
  entries.foldl (add casefold) {}

/-- `get`. -/
def get (index : ModelsDevPriceIndex β) (providerId modelId : Text) : Option (ModelsDevPrice β) :=
  index.byProvider providerId modelId

variable [DecidableEq β]

/-- What the candidates are compared by: the vendor's own listing first, then by their ids. -/
def rankOf (vendor : Text) (price : ModelsDevPrice β) : Bool ×ₗ Text ×ₗ Text :=
  toLex (decide (price.providerId ≠ vendor), toLex (price.providerId, price.modelId))

/-- `_agreed`. -/
def agreed (candidates : List (ModelsDevPrice β)) : Option (ModelsDevPrice β) :=
  match candidates with
  | [] => none
  | first :: _ =>
    if !candidates.all (·.priced) then none
    else if !candidates.all fun c => c.priceSignature = first.priceSignature then none
    else
      let vendor := vendorOf (first.canonicalModelId.getD [])
      (Select.orderBy (rankOf vendor) candidates).head?.bind fun best =>
        if candidates.all fun c => c.pricing = best.pricing then some best
        else if best.slotColumns.isSome then none
        else some { best with pricing := none }

/-- The values of a dictionary by reference: an entry keeps its place, and the last one of a
reference stands. -/
def byReference (entries : List (ModelsDevPrice β)) : List (ModelsDevPrice β) :=
  (entries.map (·.reference)).eraseDups.filterMap fun reference =>
    entries.reverse.find? fun entry => entry.reference = reference

/-- The candidates of a model id: the listings of that id or canonical id. -/
def candidates (index : ModelsDevPriceIndex β) (model : Text) : List (ModelsDevPrice β) :=
  byReference (index.byModelId (casefold model) ++ index.byCanonical (casefold model))

/-- `_agnostic`. -/
def agnostic (index : ModelsDevPriceIndex β) (model : Text) : Option (ModelsDevPrice β) :=
  agreed (index.candidates casefold model)

def geoListings (index : ModelsDevPriceIndex β) (name : Text) : List (ModelsDevPrice β) :=
  byReference ((nameVariants digit name).flatMap fun variant =>
    bedrockGeoPrefixes.filterMap fun geo =>
      index.get bedrockProviderId (geo ++ '.' :: variant))

/-- `_bedrock`. -/
def bedrock (index : ModelsDevPriceIndex β) (model : Text) : Option (ModelsDevPrice β) :=
  let geo := (splitGeo model).1
  let variants := nameVariants digit (splitGeo model).2
  let given := variants.findSome? fun variant =>
    index.get bedrockProviderId (if geo = [] then variant else geo ++ '.' :: variant)
  if geo = [] then given.or (agreed (index.geoListings digit (splitGeo model).2))
  else given.or (variants.findSome? fun variant => index.get bedrockProviderId variant)

/-- `_scoped`. -/
def scopedTo (index : ModelsDevPriceIndex β) (providerId model : Text) : Option (ModelsDevPrice β) :=
  (index.get providerId model).or
    (if providerId = bedrockProviderId then index.bedrock digit model else none)

def scopes (provider implementation : Option Text) : List Text :=
  ([provider, implementation].filterMap id).filter (· ≠ [])

/-- The lookup of a HuggingFace pinned backend. -/
def pinned (index : ModelsDevPriceIndex β) (names : List Text) (model : Text) :
    Option (ModelsDevPrice β) :=
  if "huggingface".toList ∈ names then
    (splitLast ':' model).bind fun split =>
      (hfBackendProviderIds split.2).findSome? fun providerId => index.get providerId split.1
  else none

/-- The provider's own entry, then the implementation's. -/
def own (index : ModelsDevPriceIndex β) (names : List Text) (model : Text) :
    Option (ModelsDevPrice β) :=
  names.findSome? fun name =>
    (providerIdsOf name ++ [name]).eraseDups.findSome? fun providerId =>
      index.scopedTo digit providerId model

/-- The first dot boundary of a model whose head is a provider. -/
def vendorSplit (index : ModelsDevPriceIndex β) (model : Text) : Option (Text × Text) :=
  (vendorPrefixed model).find? fun split => index.known (providerIdOf split.1)

def vendorWalk (index : ModelsDevPriceIndex β) (model : Text) : Option (ModelsDevPrice β) :=
  (index.vendorSplit model).bind fun split =>
    ((index.scopedTo digit (providerIdOf split.1) split.2).or
      (index.agnostic casefold split.2)).or (index.agnostic casefold (stripSuffix split.2))

/-- `resolve`. -/
def resolve (index : ModelsDevPriceIndex β) (provider : Option Text) (model : Text)
    (implementation : Option Text) : Option (ModelsDevPrice β) :=
  let names := scopes provider implementation
  (((index.pinned names model).or (index.own digit names model)).or
    (index.agnostic casefold model)).or (index.vendorWalk casefold digit model)

end ModelsDevPriceIndex

end

end Otari.PriceIndex

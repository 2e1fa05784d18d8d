import Otari.Pricing.CatalogRoundTrip

/-!
# Pricing — CatalogReadBack — every catalog of the declared types reads back

The dataclasses of `types/models_dev.py` with the types they declare, and the value each of them is.
A read-only mapping is the frozen JSON object it was read from.
-/

namespace Otari.CatalogCodec
open Documents (get update without get_nil get_cons get_without)

variable {ν : Type}

/-! ### The dataclasses -/

/-- A field that may be `None`. -/
def optional {α : Type} (value : α → Value ν) : Option α → Value ν
  | some a => value a
  | none => .null

def texts (items : List String) : Value ν := .tuple (items.map .str)

structure ModelsDevRates (ν : Type) where
  input : Option ν := none
  output : Option ν := none
  cacheRead : Option ν := none
  cacheWrite : Option ν := none
  malformed : List String := []

def ModelsDevRates.value (rates : ModelsDevRates ν) : Value ν :=
  .object .rates [("input", optional .number rates.input),
    ("output", optional .number rates.output), ("cache_read", optional .number rates.cacheRead),
    ("cache_write", optional .number rates.cacheWrite), ("malformed", texts rates.malformed)]

structure ModelsDevTier (ν : Type) where
  kind : Option String
  size : Option ν
  rates : ModelsDevRates ν

def ModelsDevTier.value (tier : ModelsDevTier ν) : Value ν :=
  .object .tier [("kind", optional .str tier.kind), ("size", optional .number tier.size),
    ("rates", tier.rates.value)]

structure ModelsDevCost (ν : Type) where
  rates : ModelsDevRates ν
  tiers : List (ModelsDevTier ν) := []
  contextOver200k : Option (ModelsDevRates ν) := none

def ModelsDevCost.value (cost : ModelsDevCost ν) : Value ν :=
  .object .cost [("rates", cost.rates.value), ("tiers", .tuple (cost.tiers.map (·.value))),
    ("context_over_200k", optional (·.value) cost.contextOver200k)]

structure ModelsDevCachePrices (ν : Type) where
  read : Option ν := none
  write : Option ν := none
  writeTtls : List (String × ν) := []
  storage : Option ν := none

def ttl (entry : String × ν) : Value ν := .tuple [.str entry.1, .number entry.2]

def ModelsDevCachePrices.value (cache : ModelsDevCachePrices ν) : Value ν :=
  .object .cachePrices [("read", optional .number cache.read),
    ("write", optional .number cache.write), ("write_ttls", .tuple (cache.writeTtls.map ttl)),
    ("storage", optional .number cache.storage)]

structure ModelsDevOverride (ν : Type) where
  when : List (String × Document ν)
  price : Option ν := none
  reasoning : Option ν := none
  cache : Option (ModelsDevCachePrices ν) := none
  explicitCache : Option (ModelsDevCachePrices ν) := none
  malformed : List String := []

def ModelsDevOverride.value (override : ModelsDevOverride ν) : Value ν :=
  .object .override [("when", frozen (.dict override.when)),
    ("price", optional .number override.price),
    ("reasoning", optional .number override.reasoning),
    ("cache", optional (·.value) override.cache),
    ("explicit_cache", optional (·.value) override.explicitCache),
    ("malformed", texts override.malformed)]

structure ModelsDevUnitPrice (ν : Type) where
  price : Option ν
  unit : Option String := none
  reasoning : Option ν := none
  cache : Option (ModelsDevCachePrices ν) := none
  explicitCache : Option (ModelsDevCachePrices ν) := none
  overrides : List (ModelsDevOverride ν) := []
  malformed : List String := []

def ModelsDevUnitPrice.value (price : ModelsDevUnitPrice ν) : Value ν :=
  .object .unitPrice [("price", optional .number price.price),
    ("unit", optional .str price.unit), ("reasoning", optional .number price.reasoning),
    ("cache", optional (·.value) price.cache),
    ("explicit_cache", optional (·.value) price.explicitCache),
    ("overrides", .tuple (price.overrides.map (·.value))), ("malformed", texts price.malformed)]

structure ModelsDevModalityCost (ν : Type) where
  input : Option (ModelsDevUnitPrice ν) := none
  output : Option (ModelsDevUnitPrice ν) := none

def ModelsDevModalityCost.value (cost : ModelsDevModalityCost ν) : Value ν :=
  .object .modalityCost [("input", optional (·.value) cost.input),
    ("output", optional (·.value) cost.output)]

/-- A factor of every price, or of the prices it names. -/
inductive Factor (ν : Type) where
  | number (n : ν)
  | named (entries : List (String × Document ν))

structure ModelsDevMultiplier (ν : Type) where
  when : List (String × Document ν)
  factor : Factor ν

def Factor.document : Factor ν → Document ν
  | .number n => .number n
  | .named entries => .dict entries

def ModelsDevMultiplier.value (multiplier : ModelsDevMultiplier ν) : Value ν :=
  .object .multiplier [("when", frozen (.dict multiplier.when)),
    ("factor", frozen multiplier.factor.document)]

structure ModelsDevPricing (ν : Type) where
  modalities : List (String × ModelsDevModalityCost ν)
  webSearch : Option (ModelsDevUnitPrice ν) := none
  multipliers : List (ModelsDevMultiplier ν) := []

def keyed {α : Type} (value : α → Value ν) (entries : List (String × α)) : Value ν :=
  .mapping (entries.map fun entry => (entry.1, value entry.2))

def ModelsDevPricing.value (pricing : ModelsDevPricing ν) : Value ν :=
  .object .pricing [("modalities", keyed (·.value) pricing.modalities),
    ("web_search", optional (·.value) pricing.webSearch),
    ("multipliers", .tuple (pricing.multipliers.map (·.value)))]

structure ModelsDevApi where
  protocol : String
  baseUrl : Option String := none
  path : Option String := none

def ModelsDevApi.value (api : ModelsDevApi) : Value ν :=
  .object .api [("protocol", .str api.protocol), ("base_url", optional .str api.baseUrl),
    ("path", optional .str api.path)]

structure ModelsDevModel (ν : Type) where
  id : String
  name : Option String := none
  description : Option String := none
  family : Option String := none
  canonicalModelId : Option String := none
  status : Option String := none
  inputModalities : List String := []
  outputModalities : List String := []
  reasoning : Bool := false
  toolCall : Bool := false
  structuredOutput : Bool := false
  attachment : Bool := false
  temperature : Bool := false
  openWeights : Bool := false
  contextWindow : Option ν := none
  maxOutputTokens : Option ν := none
  knowledge : Option String := none
  releaseDate : Option String := none
  lastUpdated : Option String := none
  cost : Option (ModelsDevCost ν) := none
  type : Option String := some "chat"
  api : List ModelsDevApi := []
  pricing : Option (ModelsDevPricing ν) := none

def ModelsDevModel.value (model : ModelsDevModel ν) : Value ν :=
  .object .model [("id", .str model.id), ("name", optional .str model.name),
    ("description", optional .str model.description), ("family", optional .str model.family),
    ("canonical_model_id", optional .str model.canonicalModelId),
    ("status", optional .str model.status), ("input_modalities", texts model.inputModalities),
    ("output_modalities", texts model.outputModalities), ("reasoning", .bool model.reasoning),
    ("tool_call", .bool model.toolCall), ("structured_output", .bool model.structuredOutput),
    ("attachment", .bool model.attachment), ("temperature", .bool model.temperature),
    ("open_weights", .bool model.openWeights),
    ("context_window", optional .number model.contextWindow),
    ("max_output_tokens", optional .number model.maxOutputTokens),
    ("knowledge", optional .str model.knowledge),
    ("release_date", optional .str model.releaseDate),
    ("last_updated", optional .str model.lastUpdated), ("cost", optional (·.value) model.cost),
    ("type", optional .str model.type), ("api", .tuple (model.api.map (·.value))),
    ("pricing", optional (·.value) model.pricing)]

structure ModelsDevProvider (ν : Type) where
  id : String
  name : Option String
  doc : Option String
  models : List (String × ModelsDevModel ν)

def ModelsDevProvider.value (provider : ModelsDevProvider ν) : Value ν :=
  .object .provider [("id", .str provider.id), ("name", optional .str provider.name),
    ("doc", optional .str provider.doc), ("models", keyed (·.value) provider.models)]

structure ModelsDevIssues (ν : Type) where
  count : ν
  examples : List String := []
  models : ν
  damagedModels : ν
  unknownUnits : List String := []

def ModelsDevIssues.value (issues : ModelsDevIssues ν) : Value ν :=
  .object .issues [("count", .number issues.count), ("examples", texts issues.examples),
    ("models", .number issues.models), ("damaged_models", .number issues.damagedModels),
    ("unknown_units", texts issues.unknownUnits)]

structure ModelsDevCatalog (ν : Type) where
  providers : List (String × ModelsDevProvider ν)
  issues : ModelsDevIssues ν

def ModelsDevCatalog.value (catalog : ModelsDevCatalog ν) : Value ν :=
  .object .catalog [("providers", keyed (·.value) catalog.providers),
    ("issues", catalog.issues.value)]

/-! ### Their values fit -/

variable [DecidableEq ν] [OfNat ν 0]

@[simp] theorem fits_number (n : ν) : Fits .plain (.number n) := .plain (.number n)
@[simp] theorem fits_str (s : String) : Fits .plain (.str s : Value ν) := .plain (.str s)
@[simp] theorem fits_bool (b : Bool) : Fits .plain (.bool b : Value ν) := .plain (.bool b)
@[simp] theorem fits_frozen (raw : Document ν) : Fits .plain (frozen raw) := .plain raw

variable {α : Type} {value : α → Value ν}

@[simp] theorem fits_optional {a : Option α}
    (h : ∀ a, Fits .plain (value a)) : Fits .plain (optional value a) := by
  cases a with
  | none => exact .plain .null
  | some a => exact h a

omit [DecidableEq ν] [OfNat ν 0] in
theorem frozenItems_map (raw : α → Document ν) (items : List α) :
    frozenItems (items.map raw) = items.map fun item => frozen (raw item) := by
  induction items with
  | nil => rfl
  | cons item rest ih => rw [List.map_cons, frozenItems, ih, List.map_cons]

@[simp] theorem fits_texts (items : List String) : Fits .plain (texts items : Value ν) := by
  have h : texts items = frozen (.list (items.map Document.str) : Document ν) := by
    rw [frozen, frozenItems_map]
    rfl
  exact h ▸ .plain _

@[simp] theorem fits_ttls (items : List (String × ν)) : Fits .plain (.tuple (items.map ttl)) := by
  have h : (.tuple (items.map ttl) : Value ν)
      = frozen (.list (items.map fun entry => .list [.str entry.1, .number entry.2])) := by
    rw [frozen, frozenItems_map]
    rfl
  exact h ▸ .plain _

theorem fits_of_absent {cls other : Class} {name : String}
    {a : Option α} (h : ∀ a, Fits (.one other) (value a))
    (hname : get (cls.fields : List (String × Option (Value ν))) name = some (some .null))
    (hkept : atDefault cls name (optional value a) = false) :
    Fits (.one other) (optional value a) := by
  cases a with
  | none => simp [atDefault, hname, optional, same] at hkept
  | some a => exact h a

theorem fits_each {cls : Class} {items : List α}
    (h : ∀ a, Fits (.one cls) (value a)) : Fits (.each cls) (.tuple (items.map value)) := by
  refine .each fun item hitem => ?_
  obtain ⟨a, -, rfl⟩ := List.mem_map.mp hitem
  exact h a

theorem fits_keyed {cls : Class} {entries : List (String × α)}
    (h : ∀ a, Fits (.one cls) (value a)) : Fits (.keyed cls) (keyed value entries) := by
  refine .keyed fun entry hentry => ?_
  obtain ⟨a, -, rfl⟩ := List.mem_map.mp hentry
  exact h a.2

theorem ModelsDevRates.fits (rates : ModelsDevRates ν) : Fits (.one .rates) rates.value := by
  refine .one rfl ?_
  simp [Class.reader, Class.readers]

theorem ModelsDevTier.fits (tier : ModelsDevTier ν) : Fits (.one .tier) tier.value := by
  refine .one rfl ?_
  simp [Class.reader, Class.readers, get_cons, ModelsDevRates.fits]

theorem ModelsDevCost.fits (cost : ModelsDevCost ν) : Fits (.one .cost) cost.value := by
  have htiers : Fits (.each .tier) (.tuple (cost.tiers.map fun tier => tier.value)) :=
    fits_each fun tier => tier.fits
  refine .one rfl ?_
  intro field hfield
  simp only [List.mem_cons, List.not_mem_nil, or_false] at hfield
  rcases hfield with rfl | rfl | rfl
  · exact fun _ => cost.rates.fits
  · exact fun _ => htiers
  · exact fits_of_absent ModelsDevRates.fits rfl

theorem ModelsDevCachePrices.fits (cache : ModelsDevCachePrices ν) :
    Fits (.one .cachePrices) cache.value := by
  refine .one rfl ?_
  simp [Class.reader, Class.readers]

theorem ModelsDevOverride.fits (override : ModelsDevOverride ν) :
    Fits (.one .override) override.value := by
  refine .one rfl ?_
  simp [Class.reader, Class.readers, get_cons]
  exact ⟨fits_of_absent ModelsDevCachePrices.fits rfl, fits_of_absent ModelsDevCachePrices.fits rfl⟩

theorem ModelsDevUnitPrice.fits (price : ModelsDevUnitPrice ν) :
    Fits (.one .unitPrice) price.value := by
  have hoverrides : Fits (.each .override)
      (.tuple (price.overrides.map fun override => override.value)) :=
    fits_each fun override => override.fits
  refine .one rfl ?_
  simp [Class.reader, Class.readers, get_cons, hoverrides]
  exact ⟨fits_of_absent ModelsDevCachePrices.fits rfl, fits_of_absent ModelsDevCachePrices.fits rfl⟩

theorem ModelsDevModalityCost.fits (cost : ModelsDevModalityCost ν) :
    Fits (.one .modalityCost) cost.value := by
  refine .one rfl ?_
  simp [Class.reader, Class.readers, get_cons]
  exact ⟨fits_of_absent ModelsDevUnitPrice.fits rfl, fits_of_absent ModelsDevUnitPrice.fits rfl⟩

theorem ModelsDevMultiplier.fits (multiplier : ModelsDevMultiplier ν) :
    Fits (.one .multiplier) multiplier.value := by
  refine .one rfl ?_
  simp [Class.reader, Class.readers]

theorem ModelsDevPricing.fits (pricing : ModelsDevPricing ν) :
    Fits (.one .pricing) pricing.value := by
  have hmodalities : Fits (.keyed .modalityCost)
      (keyed (fun cost => cost.value) pricing.modalities) :=
    fits_keyed fun cost => cost.fits
  have hmultipliers : Fits (.each .multiplier)
      (.tuple (pricing.multipliers.map fun multiplier => multiplier.value)) :=
    fits_each fun multiplier => multiplier.fits
  refine .one rfl ?_
  simp [Class.reader, Class.readers, get_cons, hmodalities, hmultipliers]
  exact fits_of_absent ModelsDevUnitPrice.fits rfl

theorem ModelsDevApi.fits (api : ModelsDevApi) : Fits (.one .api) (api.value : Value ν) := by
  refine .one rfl ?_
  simp [Class.reader, Class.readers]

theorem ModelsDevModel.fits (model : ModelsDevModel ν) : Fits (.one .model) model.value := by
  have hapi : Fits (.each .api) (.tuple (model.api.map fun api => api.value) : Value ν) :=
    fits_each fun api => api.fits
  refine .one rfl ?_
  simp [Class.reader, Class.readers, get_cons, hapi]
  exact ⟨fits_of_absent ModelsDevCost.fits rfl, fits_of_absent ModelsDevPricing.fits rfl⟩

theorem ModelsDevProvider.fits (provider : ModelsDevProvider ν) :
    Fits (.one .provider) provider.value := by
  have hmodels : Fits (.keyed .model) (keyed (fun model => model.value) provider.models) :=
    fits_keyed fun model => model.fits
  refine .one rfl ?_
  simp [Class.reader, Class.readers, get_cons, hmodels]

theorem ModelsDevIssues.fits (issues : ModelsDevIssues ν) : Fits (.one .issues) issues.value := by
  refine .one rfl ?_
  simp [Class.reader, Class.readers]

theorem ModelsDevCatalog.fits (catalog : ModelsDevCatalog ν) :
    Fits (.one .catalog) catalog.value := by
  have hproviders : Fits (.keyed .provider)
      (keyed (fun provider => provider.value) catalog.providers) :=
    fits_keyed fun provider => provider.fits
  refine .one rfl ?_
  simp [Class.reader, Class.readers, get_cons, hproviders, ModelsDevIssues.fits]

/-! ### The stored document -/

omit [DecidableEq ν] [OfNat ν 0] in
theorem get_update_of_absent {e : List (String × α)} {key : String}
    (h : get e key = none) (d : List (String × α)) : get (update d e) key = get d key := by
  induction e generalizing d with
  | nil => rfl
  | cons entry rest ih =>
    rw [get_cons] at h
    split at h
    · cases h
    · rename_i hne
      exact (ih h _).trans (Documents.get_set_of_ne d (Ne.symm hne) _)

theorem entries_encoded (catalog : ModelsDevCatalog ν) :
    ((encoded catalog.value).entries.map Prod.fst).Sublist ["providers", "issues"] := by
  rw [ModelsDevCatalog.value, encoded, Document.entries, encodedFields, encodedFields,
    encodedFields]
  split <;> split <;> simp

/-- **The stored catalog reads back.**  Whatever it holds, and whatever joins the format marker
without replacing it, the document of a catalog reads as the catalog. -/
theorem catalog_reads_back [OfNat ν 2]
    (parseCatalog : List (String × Document ν) → Except (Refusal ν) (Value ν))
    (catalog : ModelsDevCatalog ν) (info : List (String × Document ν))
    (hinfo : get info "format" = none) :
    readCatalogDocument parseCatalog (catalogDocument catalog.value info) = .ok catalog.value := by
  have hkeys := entries_encoded catalog
  have hnodup : ((encoded catalog.value).entries.map Prod.fst).Nodup :=
    List.Nodup.sublist hkeys (by decide)
  have hmeta : metaKey ∉ (encoded catalog.value).entries.map Prod.fst :=
    fun hmem => absurd (hkeys.subset hmem) (by decide)
  have hload : load (.one .catalog) (.dict (encoded catalog.value).entries) = .ok catalog.value :=
    load_encoded catalog.fits
  have hupdate : update [(metaKey, .dict (update [("format", .number 2)] info))]
        (encoded catalog.value).entries
      = (metaKey, .dict (update [("format", .number 2)] info))
        :: (encoded catalog.value).entries :=
    Documents.update_eq_append (by simpa using ⟨by simpa using hmeta, hnodup⟩)
  have hbody : without [metaKey] ((metaKey, .dict (update [("format", .number 2)] info))
        :: (encoded catalog.value).entries)
      = (encoded catalog.value).entries := by
    rw [without, List.filter_cons_of_neg (by simp)]
    refine List.filter_eq_self.mpr fun entry hentry => decide_eq_true fun hkey => hmeta ?_
    rw [← List.mem_singleton.mp hkey]
    exact List.mem_map_of_mem hentry
  have hformat : get (update [("format", .number (2 : ν))] info) "format" = some (.number 2) := by
    rw [get_update_of_absent hinfo]
    rfl
  unfold catalogDocument readCatalogDocument
  rw [hupdate]
  dsimp only
  rw [Documents.get_cons_self, hbody]
  dsimp only
  rw [hformat]
  dsimp only
  rw [if_pos rfl, hload]

/-- A catalog of one priced model, stored with when it was fetched. -/
theorem catalog_reads_back_one : let model : ModelsDevModel ℕ :=
      { id := "m", type := none, contextWindow := some 8, cost := some
          { rates := { input := some 3, output := some 0 } } }
    let catalog : ModelsDevCatalog ℕ :=
      { providers := [("p", { id := "p", name := none, doc := none, models := [("m", model)] })]
        issues := { count := 0, models := 1, damagedModels := 0 } }
    readCatalogDocument (fun _ => .error .notAnObject)
        (catalogDocument catalog.value [("fetched", .str "today")]) = .ok catalog.value :=
  catalog_reads_back _ _ _ rfl

end Otari.CatalogCodec

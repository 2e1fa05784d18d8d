import Otari.Pricing.CostBlock

/-!
# Pricing — BlockReader — what the reader of a `cost` block takes from it

Each reader by the lookups it makes: what it reads and whether it notes anything depends on those,
and not on where in the document it is (`value_unitPrice`, `clean_unitPrice`).  So an object that
answers the lookups as another does is read as the other is.

`get_modalities` is the block: of a document it reads cleanly, the reader holds under each modality
what it reads of the object there.
-/

namespace Otari.PriceRates
open Documents Noted

/-! ### Leaves -/

def asObject : Json → Option Fields
  | .obj fields => some fields
  | _ => none

section
variable (raw : Fields) (name : String) (path : Path)

@[simp] theorem value_price : (price raw name path).value = (get raw name).bind number := by
  unfold price
  rcases get raw name with _ | (_ | _ | _ | _ | _ | _) <;> rfl

theorem clean_price :
    Clean (price raw name path) ↔ ∀ v ∈ get raw name, v = .null ∨ ∃ q, v = .num q := by
  unfold price
  rcases get raw name with _ | (_ | _ | _ | _ | _ | _) <;> simp

@[simp] theorem value_mapping : (mapping raw name path).value = (get raw name).bind asObject := by
  unfold mapping
  rcases get raw name with _ | (_ | _ | _ | _ | _ | _) <;> rfl

theorem clean_mapping :
    Clean (mapping raw name path) ↔ ∀ v ∈ get raw name, v = .null ∨ ∃ fields, v = .obj fields := by
  unfold mapping
  rcases get raw name with _ | (_ | _ | _ | _ | _ | _) <;> simp

@[simp] theorem value_condition : (condition raw path).value = (get raw "when").bind asObject := by
  unfold condition
  rcases get raw "when" with _ | (_ | _ | _ | _ | _ | _) <;> rfl

theorem clean_condition :
    Clean (condition raw path) ↔ ∃ fields, get raw "when" = some (.obj fields) := by
  unfold condition
  rcases get raw "when" with _ | (_ | _ | _ | _ | _ | _) <;> simp

def asText : Json → Option String
  | .str s => if s = "" then none else some s
  | _ => none

@[simp] theorem value_text : (text raw name path).value = (get raw name).bind asText := by
  unfold text
  rcases get raw name with _ | (_ | _ | _ | _ | _ | _) <;> rfl

theorem clean_text :
    Clean (text raw name path) ↔ ∀ v ∈ get raw name, v = .null ∨ ∃ s, v = .str s := by
  unfold text
  rcases get raw name with _ | (_ | _ | _ | _ | _ | _) <;> simp

def objectItems (items : List Json) : List Fields := items.filterMap asObject

theorem value_objects {α : Type} (f : Fields → Path → Read (Option α)) (g : Fields → Option α)
    (hf : ∀ fields path, (f fields path).value = g fields) :
    (objects raw name path f).value = match get raw name with
      | some (.arr items) => (objectItems items).filterMap g
      | _ => [] := by
  unfold objects
  rcases get raw name with _ | (_ | _ | _ | _ | items | _)
  case some.arr =>
    have hat : ∀ item : Json × ℕ, (objectAt f name path item).value = (asObject item.1).bind g := by
      rintro ⟨item, n⟩
      cases item <;> first | rfl | exact hf _ _
    have hitems : items.filterMap (fun item => (asObject item).bind g) =
        items.zipIdx.filterMap fun item => (asObject item.1).bind g := by
      conv_lhs => rw [← List.zipIdx_map_fst 0 items, List.filterMap_map]
      rfl
    simp only [value_bind, value_pure, value_each, objectItems, List.filterMap_filterMap]
    rw [hitems, List.reduceOption, List.filterMap_map]
    simp only [Function.comp_def, hat, id]
  all_goals rfl

theorem clean_objects {α : Type} (f : Fields → Path → Read (Option α)) (P : Fields → Prop)
    (hf : ∀ fields path, Clean (f fields path) ↔ P fields) :
    Clean (objects raw name path f) ↔ ∀ v ∈ get raw name, v = .null ∨
      ∃ items, v = .arr items ∧ ∀ item ∈ items, ∃ fields, item = .obj fields ∧ P fields := by
  unfold objects
  rcases get raw name with _ | (_ | _ | _ | _ | items | _)
  case some.arr =>
    have hat : ∀ item : Json × ℕ, Clean (objectAt f name path item) ↔
        ∃ fields, item.1 = .obj fields ∧ P fields := by
      rintro ⟨item, n⟩
      cases item <;> simp [objectAt, hf]
    simp only [clean_bind, clean_pure, clean_each, hat, and_true]
    rw [← List.forall_mem_map (f := Prod.fst)
      (P := fun item => ∃ fields, item = Json.obj fields ∧ P fields), List.zipIdx_map_fst]
    simp
  all_goals simp

end

/-! ### Caches -/

@[simp] theorem value_writeTtl (path : Path) (entry : String × Json) :
    (writeTtl path entry).value = (number entry.2).map fun q => (entry.1, q) := by
  obtain ⟨ttl, value⟩ := entry
  cases value <;> rfl

@[simp] theorem clean_writeTtl (path : Path) (entry : String × Json) :
    Clean (writeTtl path entry) ↔ ∃ q, entry.2 = .num q := by
  obtain ⟨ttl, value⟩ := entry
  cases value <;> simp [writeTtl, number]

def cacheRead (cache : Fields) : CachePrices := (cachePrices cache []).value

theorem value_cacheWrites (cache : Fields) (path : Path) :
    (cacheWrites cache path).value = (cacheWrites cache []).value := by
  unfold cacheWrites
  rcases get cache "write" with _ | (_ | _ | _ | _ | _ | entries) <;> simp

@[simp] theorem value_cachePrices (cache : Fields) (path : Path) :
    (cachePrices cache path).value = cacheRead cache := by
  unfold cacheRead cachePrices
  simp only [value_bind, value_price, value_cacheWrites cache path, value_pure]

theorem clean_cacheWrites (cache : Fields) (path : Path) :
    Clean (cacheWrites cache path) ↔ Clean (cacheWrites cache []) := by
  unfold cacheWrites
  rcases get cache "write" with _ | (_ | _ | _ | _ | _ | entries) <;> simp [clean_price]

def CleanCache (cache : Fields) : Prop := Clean (cachePrices cache [])

theorem clean_cachePrices (cache : Fields) (path : Path) :
    Clean (cachePrices cache path) ↔ CleanCache cache := by
  unfold CleanCache cachePrices
  simp only [clean_bind, clean_pure, clean_price, clean_cacheWrites cache path]

/-- A `cache` block and the `explicit` block in it. -/
def cachesRead (raw : Fields) : Option CachePrices × Option CachePrices := (caches raw []).value

@[simp] theorem value_caches (raw : Fields) (path : Path) :
    (caches raw path).value = cachesRead raw := by
  unfold cachesRead caches
  simp only [value_bind, value_mapping]
  cases (get raw "cache").bind asObject <;> simp

def CleanCaches (raw : Fields) : Prop :=
  ∀ v ∈ get raw "cache", v = .null ∨ ∃ cache, v = .obj cache ∧ CleanCache cache ∧
    ∀ e ∈ get cache "explicit", e = .null ∨ ∃ explicit, e = .obj explicit ∧ CleanCache explicit

theorem forall_mem_obj {fields : Fields} {Q : Fields → Prop} :
    (∀ v ∈ some (Json.obj fields), v = .null ∨ ∃ f, v = .obj f ∧ Q f) ↔ Q fields := by
  simp

theorem clean_caches (raw : Fields) (path : Path) : Clean (caches raw path) ↔ CleanCaches raw := by
  unfold caches CleanCaches
  simp only [clean_bind, clean_mapping, value_mapping]
  rcases get raw "cache" with _ | (_ | _ | _ | _ | _ | cache)
  case some.obj =>
    simp only [Option.bind_some, asObject, clean_bind, clean_mapping, clean_cachePrices,
      value_mapping, clean_optional, clean_pure, and_true, forall_mem_obj]
    rcases get cache "explicit" with _ | (_ | _ | _ | _ | _ | explicit) <;>
      simp [asObject]
  all_goals simp [asObject]

theorem cacheRead_eq (cache : Fields) : cacheRead cache =
    { read := (get cache "read").bind number
      write := (cacheWrites cache []).value.1
      writeTtls := (cacheWrites cache []).value.2
      storage := (get cache "storage").bind number } := by
  unfold cacheRead cachePrices
  simp only [value_bind, value_price, value_pure]

theorem cachesRead_eq (raw : Fields) : cachesRead raw =
    match (get raw "cache").bind asObject with
    | none => (none, none)
    | some cache =>
      (some (cacheRead cache), ((get cache "explicit").bind asObject).map cacheRead) := by
  unfold cachesRead caches
  simp only [value_bind, value_mapping]
  cases (get raw "cache").bind asObject <;> simp

/-! ### Overrides and prices -/

/-- An override of an object that has a condition. -/
def overrideRead (raw : Fields) : Option Override := (override raw []).value

@[simp] theorem value_override (raw : Fields) (path : Path) :
    (override raw path).value = overrideRead raw := by
  unfold overrideRead override
  simp only [value_bind, value_condition, value_price, value_caches, value_pure]

theorem overrideRead_eq (raw : Fields) : overrideRead raw =
    ((get raw "when").bind asObject).map fun when' =>
      { when := when'
        price := (get raw "price").bind number
        reasoning := (get raw "reasoning").bind number
        cache := (cachesRead raw).1
        explicitCache := (cachesRead raw).2 } := by
  unfold overrideRead override
  simp only [value_bind, value_condition, value_price, value_caches, value_pure]

def CleanOverride (raw : Fields) : Prop := Clean (override raw [])

theorem cleanOverride_iff (raw : Fields) : CleanOverride raw ↔
    (∃ fields, get raw "when" = some (.obj fields)) ∧
      (∀ v ∈ get raw "price", v = .null ∨ ∃ q, v = .num q) ∧
      (∀ v ∈ get raw "reasoning", v = .null ∨ ∃ q, v = .num q) ∧ CleanCaches raw := by
  unfold CleanOverride override
  simp only [clean_bind, clean_condition, clean_price, clean_caches, clean_pure, and_true]

theorem clean_override (raw : Fields) (path : Path) :
    Clean (override raw path) ↔ CleanOverride raw := by
  unfold CleanOverride override
  simp only [clean_bind, clean_condition, clean_price, clean_caches, clean_pure]

def overridesRead (entry : Fields) : List Override :=
  match get entry "overrides" with
  | some (.arr items) => (objectItems items).filterMap overrideRead
  | _ => []

def priceRead (entry : Fields) : UnitPrice where
  price := (get entry "price").bind number
  unit := (get entry "unit").bind asText
  reasoning := (get entry "reasoning").bind number
  cache := (cachesRead entry).1
  explicitCache := (cachesRead entry).2
  overrides := overridesRead entry

variable (units : List String)

/-- **What is read of a price**, wherever it stands. -/
@[simp] theorem value_unitPrice (path : Path) (entry : Fields) :
    (unitPrice units path entry).value = priceRead entry := by
  unfold unitPrice priceRead overridesRead
  simp only [value_bind, value_price, value_caches, value_text, value_pure,
    value_objects entry "overrides" path override overrideRead value_override]

/-- The price is read without a note. -/
structure CleanPrice (units : List String) (entry : Fields) : Prop where
  price : ∀ v ∈ get entry "price", v = .null ∨ ∃ q, v = .num q
  reasoning : ∀ v ∈ get entry "reasoning", v = .null ∨ ∃ q, v = .num q
  caches : CleanCaches entry
  overrides : ∀ v ∈ get entry "overrides", v = .null ∨
    ∃ items, v = .arr items ∧ ∀ item ∈ items, ∃ fields, item = .obj fields ∧ CleanOverride fields
  unit : ∀ v ∈ get entry "unit", v = .null ∨ ∃ s, v = .str s
  known : ∀ unit ∈ (get entry "unit").bind asText, unit ∈ units

/-- **When a price is read without a note.** -/
theorem clean_unitPrice (path : Path) (entry : Fields) :
    Clean (unitPrice units path entry) ↔ CleanPrice units entry := by
  unfold unitPrice
  simp only [clean_bind, clean_pure, clean_price, clean_caches, clean_text, value_text,
    clean_objects entry "overrides" path override CleanOverride clean_override, and_true]
  have hunit : Clean (noteUnit units ((get entry "unit").bind asText)) ↔
      ∀ unit ∈ (get entry "unit").bind asText, unit ∈ units := by
    unfold noteUnit
    cases (get entry "unit").bind asText with
    | none => simp
    | some unit => by_cases h : unit ∈ units <;> simp [h]
  rw [hunit]
  constructor
  · rintro ⟨hp, hr, hc, ho, hu, hk⟩
    exact ⟨hp, hr, hc, ho, hu, hk⟩
  · intro h
    exact ⟨h.price, h.reasoning, h.caches, h.overrides, h.unit, h.known⟩

def priceUnder (raw : Fields) (name : String) : Option UnitPrice :=
  ((get raw name).bind asObject).map priceRead

@[simp] theorem value_unitPriceAt (raw : Fields) (name : String)
    (path : Path) : (unitPriceAt units raw name path).value = priceUnder raw name := by
  unfold unitPriceAt priceUnder
  simp

/-- The price under a name, if any, is read without a note. -/
def CleanUnder (units : List String) (raw : Fields) (name : String) : Prop :=
  ∀ v ∈ get raw name, v = .null ∨ ∃ entry, v = .obj entry ∧ CleanPrice units entry

theorem clean_unitPriceAt (raw : Fields) (name : String) (path : Path) :
    Clean (unitPriceAt units raw name path) ↔ CleanUnder units raw name := by
  unfold unitPriceAt CleanUnder
  simp only [clean_bind, clean_mapping, value_mapping, clean_optional, clean_unitPrice]
  rcases get raw name with _ | (_ | _ | _ | _ | _ | entry) <;> simp [asObject]

/-! ### Blocks -/

def modalityRead (prices : Fields) : ModalityCost where
  input := priceUnder prices "input"
  output := priceUnder prices "output"

@[simp] theorem value_modality (path : Path) (entry : String × Json) :
    (modality units path entry).value =
      (asObject entry.2).map fun prices => (entry.1, modalityRead prices) := by
  obtain ⟨name, value⟩ := entry
  cases value <;> simp [modality, asObject, modalityRead, note]

theorem clean_modality (path : Path) (entry : String × Json) :
    Clean (modality units path entry) ↔ ∃ prices, entry.2 = .obj prices ∧
      CleanUnder units prices "input" ∧ CleanUnder units prices "output" := by
  obtain ⟨name, value⟩ := entry
  cases value <;> simp [modality, clean_unitPriceAt]

def CleanMultiplier (raw : Fields) : Prop := Clean (multiplier raw [])

theorem clean_multiplier (raw : Fields) (path : Path) :
    Clean (multiplier raw path) ↔ CleanMultiplier raw := by
  unfold CleanMultiplier multiplier
  simp only [clean_bind, clean_condition]
  rcases get raw "factor" with _ | (_ | _ | _ | _ | _ | _) <;> simp

/-- The block is read without a note. -/
structure CleanBlock (units : List String) (cost : Fields) : Prop where
  modalities : ∀ entry ∈ without besideModalities cost, ∃ prices, entry.2 = .obj prices ∧
    CleanUnder units prices "input" ∧ CleanUnder units prices "output"
  multipliers : ∀ v ∈ get cost "multipliers", v = .null ∨
    ∃ items, v = .arr items ∧ ∀ item ∈ items, ∃ fields, item = .obj fields ∧ CleanMultiplier fields
  webSearch : CleanUnder units cost "web_search"

/-- **When a block is read without a note.** -/
theorem clean_costV2 (cost : Fields) (path : Path) :
    Clean (costV2 units cost path) ↔ CleanBlock units cost := by
  unfold costV2
  simp only [clean_bind, clean_pure, clean_each, clean_modality, clean_unitPriceAt,
    clean_objects cost "multipliers" path multiplier CleanMultiplier clean_multiplier, and_true]
  constructor
  · rintro ⟨hm, hx, hw⟩
    exact ⟨hm, hx, hw⟩
  · intro h
    exact ⟨h.modalities, h.multipliers, h.webSearch⟩

theorem costV2_webSearch (cost : Fields) (path : Path) :
    (costV2 units cost path).value.webSearch = priceUnder cost "web_search" := by
  unfold costV2
  simp only [value_bind, value_unitPriceAt, value_pure]

/-- **What a block holds of a modality**, for a block read without a note. -/
theorem get_modalities {units : List String} {cost : Fields} (h : CleanBlock units cost)
    (path : Path) {name : String} (hname : name ∉ besideModalities) :
    get (costV2 units cost path).value.modalities name =
      ((get cost name).bind asObject).map modalityRead := by
  have hread : (costV2 units cost path).value.modalities =
      (without besideModalities cost).filterMap fun entry =>
        (asObject entry.2).map fun prices => (entry.1, modalityRead prices) := by
    unfold costV2
    simp only [value_bind, value_each, value_modality, value_pure]
    rw [List.reduceOption, List.filterMap_map]
    rfl
  have hlookup : ∀ entries : Fields, (∀ entry ∈ entries, ∃ prices, entry.2 = .obj prices) →
      get (entries.filterMap fun entry =>
          (asObject entry.2).map fun prices => (entry.1, modalityRead prices)) name =
        ((get entries name).bind asObject).map modalityRead := by
    intro entries
    induction entries with
    | nil => intro _; rfl
    | cons entry rest ih =>
      intro hobj
      obtain ⟨key, value⟩ := entry
      obtain ⟨prices, rfl⟩ := hobj _ List.mem_cons_self
      have hrest := ih fun e he => hobj e (List.mem_cons_of_mem _ he)
      simp only [List.filterMap_cons, asObject, Option.map_some] at hrest ⊢
      rw [get_cons, get_cons, hrest]
      split <;> rfl
  rw [hread, hlookup _ fun entry he => (h.modalities entry he).imp fun _ hp => hp.1,
    get_without, if_neg hname]

end Otari.PriceRates

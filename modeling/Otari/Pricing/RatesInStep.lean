import Otari.Pricing.CarriedPrices
import Otari.Pricing.MergedPrice

/-!
# Pricing — RatesInStep — a row's columns and its block say one price

A write of columns on a readable block leaves the block of the columns alone, or the old block with
one slot rewritten (`mergedBlock_ok`, `Keeps`).  Either way what is left reads back as the columns:
their unit and four rates always, and their tiers where no slot read before theirs is priced.

`columns_and_rates_in_step` is that, through the row's hook, with the round trip of columns alone
and the prices of what comes back.
-/

namespace Otari.PriceRates
open Documents Noted
open List
open Option
open Metered (PriceUnit Direction AttemptReport)
open Otari.Pricing (RateColumns PricingTier ModelPricing)

variable {narrow : ℚ → ℚ} {columns : RateColumns} {block : Fields}

def knownUnits : List String := priceUnits.map unitName

def slotKey (unit : PriceUnit) : String := (slots unit).modality.getD "web_search"

/-- The price of one direction of a slot, as the block has it. -/
def priceObject (block : Fields) (slot : Slot) (direction : Direction) : Option Json :=
  match slot.modality with
  | none => get block "web_search"
  | some modality => get (objectUnder block modality) (directionName direction)

def Written (columns : RateColumns) (direction : Direction) : Prop :=
  priceInto (slots columns.unit) columns direction ≠ none

/-- **What a column write keeps of a block**: every other entry, every other direction of its own
slot, and of a price in the columns' unit all that columns cannot express. -/
structure Keeps (block : Fields) (columns : RateColumns) (new : Fields) : Prop where
  others : ∀ key ≠ slotKey columns.unit, get new key = get block key
  beside : ∀ modality ∈ (slots columns.unit).modality, ∀ name,
    (∀ direction, Written columns direction → name ≠ directionName direction) →
      get (objectUnder new modality) name = get (objectUnder block modality) name
  prices : ∀ direction, Written columns direction → ∀ old ≠ [],
    priceObject block (slots columns.unit) direction = some (.obj old) →
      sameUnit (documentUnit old) (.str (unitName columns.unit)) = true →
      ∃ price, priceObject new (slots columns.unit) direction = some (.obj price) ∧
        KeepsPrice old price

/-- What a merge leaves. -/
structure MergedOf (block : Fields) (columns : RateColumns) (new : Fields) : Prop where
  clean : Clean (readRates new)
  others : ∀ key ≠ slotKey columns.unit, get new key = get block key
  beside : ∀ modality ∈ (slots columns.unit).modality, ∀ name,
    (∀ direction, Written columns direction → name ≠ directionName direction) →
      get (objectUnder new modality) name = get (objectUnder block modality) name
  written : ∀ direction p, priceInto (slots columns.unit) columns direction = some p →
    priceObject new (slots columns.unit) direction = some (.obj
      (mergedFields (priceObject block (slots columns.unit) direction) (unitPriceDocument p)))

/-! ### The merge -/

variable {units : List String}

theorem mergedDirections_cons {kept : Fields} {name : String}
    (h : CleanOld units (get kept name)) (price rest : Fields) :
    mergedDirections kept ((name, .obj price) :: rest) =
      mergedDirections (set kept name (.obj (mergedFields (get kept name) price))) rest := by
  rw [mergedDirections, mergedPrice_ok h]
  rfl

theorem mergedDirections_ok {kept : Fields}
    (h : ∀ direction, CleanOld units (get kept (directionName direction))) (prices : ModalityCost) :
    ∃ new, mergedDirections kept (modalityDocument prices) = .ok new ∧
      (∀ direction, get new (directionName direction) =
        match prices.price direction with
        | some p => some (.obj
            (mergedFields (get kept (directionName direction)) (unitPriceDocument p)))
        | none => get kept (directionName direction)) ∧
      ∀ name, (∀ direction, prices.price direction ≠ none → name ≠ directionName direction) →
        get new name = get kept name := by
  obtain ⟨input, output⟩ := prices
  have hin : CleanOld units (get kept "input") := h .input
  have hout : ∀ v, CleanOld units (get (set kept "input" v) "output") := fun v => by
    rw [get_set_of_ne kept (by decide)]
    exact h .output
  cases input with
  | none =>
    cases output with
    | none =>
      refine ⟨kept, rfl, fun direction => ?_, fun name _ => rfl⟩
      cases direction <;> rfl
    | some q =>
      refine ⟨_, mergedDirections_cons (h .output) _ [], fun direction => ?_,
        fun name hname => ?_⟩
      · cases direction with
        | input => exact get_set_of_ne kept (by decide) _
        | output => exact get_set_self kept _ _
      · exact get_set_of_ne kept (hname .output (by simp [ModalityCost.price])) _
  | some p =>
    cases output with
    | none =>
      refine ⟨_, mergedDirections_cons hin _ [], fun direction => ?_, fun name hname => ?_⟩
      · cases direction with
        | input => exact get_set_self kept _ _
        | output => exact get_set_of_ne kept (by decide) _
      · exact get_set_of_ne kept (hname .input (by simp [ModalityCost.price])) _
    | some q =>
      refine ⟨_, (mergedDirections_cons hin _ _).trans (mergedDirections_cons (hout _) _ []),
        fun direction => ?_, fun name hname => ?_⟩
      · cases direction with
        | input =>
          rw [directionName, get_set_of_ne _ (by decide)]
          exact get_set_self kept _ _
        | output =>
          rw [directionName, get_set_self, get_set_of_ne kept (by decide)]
          rfl
      · have hnot : name ≠ "output" := hname .output (by simp [ModalityCost.price])
        have hnotIn : name ≠ "input" := hname .input (by simp [ModalityCost.price])
        rw [get_set_of_ne _ hnot, get_set_of_ne _ hnotIn]

theorem get_of_mem_without {keys : List String} {d : Fields} {entry : String × Json}
    (h : entry ∈ without keys d) : entry ∈ d ∧ entry.1 ∉ keys := by
  have hmem := mem_filter.mp h
  exact ⟨hmem.1, by simpa using hmem.2⟩

theorem cleanOld_under (h : CleanBlock units block) {modality : String}
    (hm : modality ∉ besideModalities) (direction : Direction) :
    CleanOld units (get (objectUnder block modality) (directionName direction)) := by
  unfold objectUnder
  cases hget : get block modality with
  | none => intro v hv; cases hv
  | some value =>
    have hmem : (modality, value) ∈ without besideModalities block :=
      mem_filter.mpr ⟨mem_of_get hget, by simpa using hm⟩
    obtain ⟨prices, hprices, hinput, houtput⟩ := h.modalities _ hmem
    obtain rfl : value = .obj prices := hprices
    cases direction with
    | input => exact hinput
    | output => exact houtput

theorem cleanOld_priceObject (h : CleanBlock knownUnits block) {slot : Slot}
    (hslot : slot ∈ readOrder) (direction : Direction) :
    CleanOld knownUnits (priceObject block slot direction) := by
  unfold priceObject
  cases hm : slot.modality with
  | none => exact h.webSearch
  | some modality => exact cleanOld_under h (modality_plain hslot hm) direction

theorem cleanPrice_written (h : CleanBlock knownUnits block) {direction : Direction}
    {p : UnitPrice} (hp : priceInto (slots columns.unit) columns direction = some p) :
    CleanPrice knownUnits (mergedFields (priceObject block (slots columns.unit) direction)
      (unitPriceDocument p)) := by
  obtain ⟨hplain, hknown⟩ := plain_priceInto hp
  exact cleanPrice_merged (cleanOld_priceObject h (slots_mem_readOrder columns.unit) direction)
    hplain hknown

theorem objectUnder_set_self (block : Fields) (key : String) (fields : Fields) :
    objectUnder (set block key (.obj fields)) key = fields := by
  unfold objectUnder
  rw [get_set_self]

theorem cleanBlock_set_modality (h : CleanBlock knownUnits block) {modality : String}
    (hm : modality ∉ besideModalities) {fields : Fields}
    (hfields : ∀ direction, CleanOld knownUnits (get fields (directionName direction))) :
    CleanBlock knownUnits (set block modality (.obj fields)) := by
  have hsearch : "web_search" ≠ modality := fun e => hm (e ▸ by decide)
  have hmultipliers : "multipliers" ≠ modality := fun e => hm (e ▸ by decide)
  refine ⟨fun entry hentry => ?_, ?_, ?_⟩
  · obtain ⟨hmem, hkey⟩ := get_of_mem_without hentry
    rcases mem_set hmem with rfl | hin
    · exact ⟨fields, rfl, hfields .input, hfields .output⟩
    · exact h.modalities entry (mem_filter.mpr ⟨hin, by simpa using hkey⟩)
  · rw [get_set_of_ne block hmultipliers]
    exact h.multipliers
  · unfold CleanUnder
    rw [get_set_of_ne block hsearch]
    exact h.webSearch

theorem cleanBlock_set_webSearch (h : CleanBlock knownUnits block) {price : Fields}
    (hprice : CleanPrice knownUnits price) :
    CleanBlock knownUnits (set block "web_search" (.obj price)) := by
  refine ⟨fun entry hentry => ?_, ?_, ?_⟩
  · obtain ⟨hmem, hkey⟩ := get_of_mem_without hentry
    rcases mem_set hmem with rfl | hin
    · exact absurd mem_cons_self hkey
    · exact h.modalities entry (mem_filter.mpr ⟨hin, by simpa using hkey⟩)
  · rw [get_set_of_ne block (by decide)]
    exact h.multipliers
  · intro v hv
    rw [get_set_self] at hv
    obtain rfl := Option.some.inj hv
    exact .inr ⟨price, rfl, hprice⟩

theorem mergedEntry_webSearch (hold : CleanOld knownUnits (get block "web_search"))
    (price : Fields) : mergedEntry block block ("web_search", .obj price) =
      .ok (set block "web_search" (.obj (mergedFields (get block "web_search") price))) := by
  unfold mergedEntry
  dsimp only
  rw [if_pos rfl]
  rcases hget : get block "web_search" with _ | (_ | _ | _ | _ | _ | fields)
  case some.obj =>
    rw [hget] at hold
    have hmerged : mergedPrice (some (.obj fields)) price =
        .ok (mergedFields (some (.obj fields)) price) := mergedPrice_ok hold
    dsimp only
    rw [hmerged]
    rfl
  all_goals rfl

/-- **A readable block is merged without an error.** -/
theorem mergedBlock_ok (hclean : Clean (readRates block)) (columns : RateColumns) :
    ∃ new, mergedBlock block (ratesFromColumns columns) = .ok new ∧ MergedOf block columns new := by
  have hblock : CleanBlock knownUnits block := (clean_costV2 _ _ _).mp hclean
  have hslot := slots_mem_readOrder columns.unit
  rw [ratesFromColumns_eq]
  cases hm : (slots columns.unit).modality with
  | none =>
    -- only the search has no modality: it has one price, beside them
    have hkey : slotKey columns.unit = "web_search" := by rw [slotKey, hm]; rfl
    have hobject : ∀ (new : Fields) (direction : Direction),
        priceObject new (slots columns.unit) direction = get new "web_search" := fun new _ => by
      rw [priceObject, hm]
    have hold : CleanOld knownUnits (get block "web_search") := hblock.webSearch
    have hgiven : ∀ direction p, priceInto (slots columns.unit) columns direction = some p →
        p = givenPrice columns := by
      intro direction p hp
      have hsearch : columns.unit = .webSearch := by
        cases hu : columns.unit <;> rw [hu] at hm <;> first | rfl | cases hm
      unfold priceInto at hp
      rw [hsearch] at hp
      cases direction with
      | input => exact (Option.some.inj hp).symm
      | output => cases hp
    obtain ⟨hplain, hknown⟩ := plain_priceInto (priceInto_given columns)
    refine ⟨set block "web_search" (.obj (mergedFields (get block "web_search")
      (unitPriceDocument (givenPrice columns)))), ?_, ?_⟩
    · simp only [mergedBlock, foldlM_cons, foldlM_nil, mergedEntry_webSearch hold]
      rfl
    · refine ⟨?_, fun key hne => get_set_of_ne block (hkey ▸ hne) _, ?_, fun direction p hp => ?_⟩
      · exact (clean_costV2 _ _ _).mpr
          (cleanBlock_set_webSearch hblock (cleanPrice_merged hold hplain hknown))
      · intro modality hmodality
        rw [hm] at hmodality
        cases hmodality
      · rw [hobject, hobject, get_set_self, hgiven direction p hp]
  | some modality =>
    -- the directions are merged into the object of the modality
    have hkey : slotKey columns.unit = modality := by rw [slotKey, hm]; rfl
    have hplain := modality_plain hslot hm
    have hne : modality ≠ "web_search" := fun e => hplain (e ▸ by decide)
    have hobject : ∀ (new : Fields) (direction : Direction),
        priceObject new (slots columns.unit) direction =
          get (objectUnder new modality) (directionName direction) := fun new _ => by
      rw [priceObject, hm]
    have hprice : ∀ direction, ({
          input := priceInto (slots columns.unit) columns .input
          output := priceInto (slots columns.unit) columns .output } : ModalityCost).price direction
        = priceInto (slots columns.unit) columns direction := fun direction => by
      cases direction <;> rfl
    obtain ⟨fields, hfields, hwritten, hbeside⟩ :=
      mergedDirections_ok (fun direction => cleanOld_under hblock hplain direction)
        { input := priceInto (slots columns.unit) columns .input
          output := priceInto (slots columns.unit) columns .output }
    have hread : ∀ direction, CleanOld knownUnits (get fields (directionName direction)) := by
      intro direction
      rw [hwritten, hprice]
      cases hp : priceInto (slots columns.unit) columns direction with
      | none => exact cleanOld_under hblock hplain direction
      | some p =>
        intro v hv
        obtain rfl := Option.some.inj hv
        have hcleanPrice := cleanPrice_written hblock hp
        rw [hobject] at hcleanPrice
        exact .inr ⟨_, rfl, hcleanPrice⟩
    refine ⟨set block modality (.obj fields), ?_, ?_⟩
    · simp only [mergedBlock, foldlM_cons, foldlM_nil, mergedEntry, if_neg hne,
        slotDocument, hfields]
      rfl
    · refine ⟨?_, fun key hne => get_set_of_ne block (hkey ▸ hne) _, ?_, fun direction p hp => ?_⟩
      · exact (clean_costV2 _ _ _).mpr (cleanBlock_set_modality hblock hplain hread)
      · intro other hother name hname
        obtain rfl : modality = other := Option.some.inj (hm.symm.trans hother)
        rw [objectUnder_set_self]
        exact hbeside name fun direction hd => hname direction (by rwa [Written, ← hprice])
      · rw [hobject, hobject, objectUnder_set_self, hwritten, hprice, hp]

/-! ### What a merged block reads as -/

theorem givenOf_says {q : UnitPrice} (h : Says (givenPrice columns) q) : GivenOf columns q where
  price := h.price
  unit := h.unit
  cacheRead := h.cacheRead.trans (columnCache_read _ _ _)
  overrides := h.overrides

theorem madeOf_says {q : UnitPrice} (h : Says (madePrice columns) q) : MadeOf columns q where
  price := h.price
  unit := h.unit
  overrides := h.overrides

theorem pricesUnder_slot (block : Fields) (unit : PriceUnit) : pricesUnder block (slots unit) =
    (((priceObject block (slots unit) (slots unit).given).bind asObject).map priceRead,
      (slots unit).made.bind fun direction =>
        ((priceObject block (slots unit) direction).bind asObject).map priceRead) := by
  unfold pricesUnder priceObject
  cases hm : (slots unit).modality with
  | none =>
    have hmade : (slots unit).made = none := by
      cases unit <;> first | rfl | cases hm
    rw [hmade]
    rfl
  | some modality =>
    unfold objectUnder
    dsimp only
    rcases get block modality with _ | (_ | _ | _ | _ | _ | prices)
    case some.obj => rfl
    all_goals
      simp only [bind_none, bind_some, asObject, get_nil, map_none]
      cases (slots unit).made <;> rfl

section
variable {new : Fields}

theorem MergedOf.given (h : MergedOf block columns new) :
    (pricesUnder new (slots columns.unit)).1 = some (priceRead (mergedFields
      (priceObject block (slots columns.unit) (slots columns.unit).given)
      (unitPriceDocument (givenPrice columns)))) := by
  rw [pricesUnder_slot, h.written _ _ (priceInto_given columns)]
  rfl

theorem MergedOf.slotOf (h : MergedOf block columns new) :
    SlotOf columns (pricesUnder new (slots columns.unit)) where
  given := ⟨_, h.given, givenOf_says (says_merged (plain_givenPrice columns) _)⟩
  made := by
    rw [pricesUnder_slot]
    dsimp only
    cases hmade : (slots columns.unit).made with
    | none =>
      have hboth : ¬ pricesBoth columns.unit = true := by
        rw [pricesBoth, hmade]
        simp
      exact if_neg hboth ▸ rfl
    | some direction =>
      have hboth : pricesBoth columns.unit = true := by
        rw [pricesBoth, hmade]
        rfl
      rw [if_pos hboth, bind_some, h.written _ _ (priceInto_made columns hmade)]
      exact ⟨_, rfl, madeOf_says (says_merged (plain_madePrice columns) _)⟩

theorem MergedOf.elsewhere (h : MergedOf block columns new) {slot : Slot}
    (hslot : slot ∈ earlier columns.unit) : pricesUnder new slot = pricesUnder block slot := by
  have hkey : slot.modality.getD "web_search" ≠ slotKey columns.unit := by
    revert slot
    cases columns.unit <;> decide
  unfold pricesUnder
  cases hm : slot.modality with
  | none =>
    rw [hm, getD_none] at hkey
    dsimp only
    unfold priceUnder
    rw [h.others _ hkey]
  | some modality =>
    rw [hm, getD_some] at hkey
    dsimp only
    rw [h.others _ hkey]

theorem MergedOf.reads (hc : Carriable narrow columns) (h : MergedOf block columns new)
    (hearlier : ∀ slot ∈ earlier columns.unit, Unpriced (pricesUnder block slot)) :
    ∃ p, (pricesUnder new (slots columns.unit)).1 = some p ∧ columnsFromRates narrow new =
        (column (published columns.unit) (cacheWrite p.cache p.explicitCache)).map fun write =>
          { carried columns with cacheWritePricePerMillion := write } :=
  columnsFromRates_slot hc h.clean (fun slot hslot => by
    rw [h.elsewhere hslot]
    exact hearlier slot hslot) h.slotOf

theorem MergedOf.keeps (h : MergedOf block columns new) : Keeps block columns new where
  others := h.others
  beside := h.beside
  prices direction hwritten old hne hold hunit := by
    obtain ⟨p, hp⟩ := ne_none_iff_exists'.mp hwritten
    have hplain := (plain_priceInto hp).1
    have hname : p.unit = some (unitName columns.unit) := by
      rcases priceInto_cases hp with rfl | rfl <;> rfl
    have hdocument : documentUnit (unitPriceDocument p) = .str (unitName columns.unit) := by
      rw [documentUnit, get_unit, hname]
      exact if_pos (by simp [truthy, unitName_ne])
    refine ⟨_, h.written _ _ hp, ?_⟩
    rw [hold, mergedFields, if_neg]
    · exact keepsPrice_rewritten hplain old
    · rw [hdocument, hunit]
      simp [hne]

/-- **Room for the columns in a block**: nothing read before their slot is priced, its output has a
place there, and no explicit cache has the write price they leave out. -/
structure Room (block : Fields) (columns : RateColumns) : Prop where
  first : ∀ slot ∈ earlier columns.unit, Unpriced (pricesUnder block slot)
  output : pricesBoth columns.unit = true ∨ columns.outputPricePerMillion = 0
  write : columns.cacheWritePricePerMillion = none →
    ∀ p ∈ (pricesUnder block (slots columns.unit)).1, ∀ explicit ∈ p.explicitCache,
      explicit.write = none

theorem MergedOf.reads_room (hc : Carriable narrow columns) (h : MergedOf block columns new)
    (hroom : Room block columns) : columnsFromRates narrow new = .ok (carried columns) := by
  obtain ⟨p, hp, hread⟩ := h.reads hc hroom.first
  rw [h.given] at hp
  obtain rfl := Option.some.inj hp
  have hsays := says_merged (plain_givenPrice columns)
    (priceObject block (slots columns.unit) (slots columns.unit).given)
  have hown : ((givenPrice columns).cache.bind fun cache => cache.write) =
      columns.cacheWritePricePerMillion.map (· * published columns.unit) := by
    have hwrite := columnCache_write columns.cacheReadPricePerMillion
      columns.cacheWritePricePerMillion (published columns.unit)
    rw [cacheWrite, bind_none, or_none] at hwrite
    exact hwrite
  rw [hread, cacheWrite, hsays.cacheWrite, hown]
  cases hcolumn : columns.cacheWritePricePerMillion with
  | some write =>
    have hfits := hc.cacheWrite write hcolumn
    rw [map_some, some_or]
    have hback := column_published (published_pos columns.unit) (q := some write)
      fun r hr => Option.some.inj hr ▸ hfits
    rw [map_some] at hback
    rw [hback, carried, hcolumn]
    rfl
  | none =>
    have hnone : ((priceRead (mergedFields
          (priceObject block (slots columns.unit) (slots columns.unit).given)
          (unitPriceDocument (givenPrice columns)))).explicitCache.bind fun cache => cache.write)
        = none := by
      rcases explicit_merged (plain_givenPrice columns)
          (priceObject block (slots columns.unit) (slots columns.unit).given) with
        hexplicit | ⟨entry, hentry, hexplicit⟩
      · rw [hexplicit]
        rfl
      · rw [hexplicit]
        have hold : (pricesUnder block (slots columns.unit)).1 = some (priceRead entry) := by
          rw [pricesUnder_slot, hentry]
          rfl
        have hwrite := hroom.write hcolumn _ hold
        cases hcache : (priceRead entry).explicitCache with
        | none => rfl
        | some explicit => exact hwrite explicit hcache
    rw [hnone, map_none, or_none, column_none, carried, hcolumn]
    rfl

end

/-! ### After a column write -/

/-- What is read is the columns: their unit, and their rates but an output no slot has. -/
structure InStep (read columns : RateColumns) : Prop where
  unit : read.unit = columns.unit
  input : read.inputPricePerMillion = columns.inputPricePerMillion
  output : read.outputPricePerMillion = columns.outputPricePerMillion ∨
    (pricesBoth columns.unit = false ∧ read.outputPricePerMillion = 0)
  cacheRead : read.cacheReadPricePerMillion = columns.cacheReadPricePerMillion
  cacheWrite : read.cacheWritePricePerMillion = columns.cacheWritePricePerMillion

theorem inStep_carried (columns : RateColumns) : InStep (carried columns) columns where
  unit := rfl
  input := rfl
  output := by
    unfold carried
    dsimp only
    cases hboth : pricesBoth columns.unit with
    | true => exact .inl rfl
    | false => exact .inr ⟨rfl, rfl⟩
  cacheRead := rfl
  cacheWrite := rfl

variable {read : RateColumns}

theorem readsBack_iff {columns : RateColumns} : readsBack read columns = true ↔
    read.inputPricePerMillion = columns.inputPricePerMillion ∧
      read.outputPricePerMillion = columns.outputPricePerMillion ∧
      read.cacheReadPricePerMillion = columns.cacheReadPricePerMillion ∧
      read.cacheWritePricePerMillion = columns.cacheWritePricePerMillion ∧
      read.unit = columns.unit := by
  unfold readsBack
  exact decide_eq_true_iff

theorem inStep_of_readsBack (h : readsBack read columns = true) : InStep read columns := by
  obtain ⟨hinput, houtput, hread, hwrite, hunit⟩ := readsBack_iff.mp h
  exact ⟨hunit, hinput, .inl houtput, hread, hwrite⟩

/-- **A block after a write of columns.** -/
structure AfterWrite (narrow : ℚ → ℚ) (block : Fields) (columns : RateColumns)
    (result : Fields) : Prop where
  /-- The block of the columns alone, or the old block with one slot rewritten. -/
  kept : result = ratesFromColumns columns ∨ Keeps block columns result
  /-- It reads back as the columns. -/
  reads : ∃ read, columnsFromRates narrow result = .ok read ∧ InStep read columns
  /-- With their tiers, where theirs is the first slot priced. -/
  tiers : (∀ slot ∈ earlier columns.unit, Unpriced (pricesUnder block slot)) →
    columnsFromRates narrow result = .ok (carried columns)
  /-- And with the rest of the block, where there is room. -/
  room : block ≠ [] → Room block columns → Keeps block columns result

theorem afterWrite_fresh (hc : Carriable narrow columns)
    (hroom : block ≠ [] → ¬ Room block columns) :
    AfterWrite narrow block columns (ratesFromColumns columns) where
  kept := .inl rfl
  reads := ⟨_, columnsFromRates_fresh hc, inStep_carried columns⟩
  tiers _ := columnsFromRates_fresh hc
  room hne h := absurd h (hroom hne)

theorem MergedOf.afterWrite (hc : Carriable narrow columns) {new : Fields}
    (h : MergedOf block columns new)
    (hread : columnsFromRates narrow new = .ok read) (hback : readsBack read columns = true) :
    AfterWrite narrow block columns new where
  kept := .inr h.keeps
  reads := ⟨read, hread, inStep_of_readsBack hback⟩
  tiers hearlier := by
    obtain ⟨p, -, hslot⟩ := h.reads hc hearlier
    have hsame := hslot.symm.trans hread
    cases hwrite : column (published columns.unit) (cacheWrite p.cache p.explicitCache) with
    | error e =>
      rw [hwrite] at hsame
      cases hsame
    | ok write =>
      rw [hwrite] at hsame
      obtain rfl : ({ carried columns with cacheWritePricePerMillion := write } : RateColumns)
        = read := Except.ok.inj hsame
      obtain ⟨-, -, -, hcolumn, -⟩ := readsBack_iff.mp hback
      have hcolumn : write = columns.cacheWritePricePerMillion := hcolumn
      rw [hread, hcolumn]
      rfl
  room _ _ := h.keeps

/-- **A column write on a readable block.** -/
theorem ratesWithColumns_ok (hc : Carriable narrow columns) (hclean : Clean (readRates block)) :
    ∃ result, ratesWithColumns narrow (some block) columns = .ok result ∧
      AfterWrite narrow block columns result := by
  rcases block with _ | ⟨entry, rest⟩
  · exact ⟨_, rfl, afterWrite_fresh hc fun h => absurd rfl h⟩
  · obtain ⟨new, hnew, hmerged⟩ := mergedBlock_ok hclean columns
    have hrefused : ∀ e, columnsFromRates narrow new = .error e →
        ratesWithColumns narrow (some (entry :: rest)) columns = .ok (ratesFromColumns columns) := by
      intro e he
      unfold ratesWithColumns
      dsimp only
      rw [hnew]
      simp only [bind, Except.bind, he]
      rfl
    have hreadBack : ∀ read, columnsFromRates narrow new = .ok read →
        ratesWithColumns narrow (some (entry :: rest)) columns =
          .ok (if readsBack read columns then new else ratesFromColumns columns) := by
      intro read hok
      unfold ratesWithColumns
      dsimp only
      rw [hnew]
      simp only [bind, Except.bind, hok]
      rfl
    -- with room the merged block reads back
    have hroom : Room (entry :: rest) columns → ∃ read, columnsFromRates narrow new = .ok read ∧
        readsBack read columns = true := by
      intro hroom
      refine ⟨_, hmerged.reads_room hc hroom, readsBack_iff.mpr ⟨rfl, ?_, rfl, rfl, rfl⟩⟩
      unfold carried
      dsimp only
      cases hboth : pricesBoth columns.unit with
      | true => rfl
      | false =>
        rcases hroom.output with h | h
        · rw [hboth] at h
          cases h
        · exact h.symm
    cases hread : columnsFromRates narrow new with
    | error e =>
      refine ⟨_, hrefused e hread, afterWrite_fresh hc fun _ h => ?_⟩
      obtain ⟨read, hok, -⟩ := hroom h
      rw [hread] at hok
      cases hok
    | ok read =>
      refine ⟨_, hreadBack read hread, ?_⟩
      by_cases hback : readsBack read columns = true
      · rw [if_pos hback]
        exact hmerged.afterWrite hc hread hback
      · rw [if_neg hback]
        refine afterWrite_fresh hc fun _ h => ?_
        obtain ⟨own, hok, hown⟩ := hroom h
        rw [hread] at hok
        exact hback (Except.ok.inj hok ▸ hown)

/-- **Columns and block stay in step.**  Columns through a block of their own come back as
`carried`, at the same price of every report; and the hook of a row rewrites the side that did not
move to what the other says. -/
theorem columns_and_rates_in_step (narrow : ℚ → ℚ) (columns : RateColumns)
    (hc : Carriable narrow columns) :
    columnsFromRates narrow (ratesFromColumns columns) = .ok (carried columns) ∧
    (pricesBoth columns.unit = true → (∀ tier ∈ columns.pricingTiers, Overrides tier) →
      ∀ row : ModelPricing, row.columns = columns → ∀ (report : AttemptReport) slot,
        Metered.priceUsage (some (carriedRow row).rate) report slot =
          Metered.priceUsage (some row.rate) report slot) ∧ (∀ block, Clean (readRates block) →
      ∃ result, beforeUpdate narrow false true { columns := columns, rates := some block } =
          .ok { columns := columns, rates := some result } ∧
        AfterWrite narrow block columns result) ∧
    ∀ block row, beforeUpdate narrow true false { columns := columns, rates := some block } = .ok row →
      row.rates = some block ∧ columnsFromRates narrow block = .ok row.columns := by
  refine ⟨columnsFromRates_fresh hc, ?_, ?_, ?_⟩
  · rintro hboth hover row rfl report slot
    exact priceUsage_carried hboth hover hc.positive hc.distinct report slot
  · intro block hclean
    obtain ⟨result, hwith, hafter⟩ := ratesWithColumns_ok hc hclean
    refine ⟨result, ?_, hafter⟩
    unfold beforeUpdate
    simp only [Bool.false_and, Bool.not_false, Bool.and_self, if_true, hwith]
    rfl
  · intro block row hupdate
    have hread : (columnsFromRates narrow block).map
        (fun columns => ({ columns := columns, rates := some block } : PriceRow)) = .ok row := by
      rw [← hupdate]
      cases h : columnsFromRates narrow block <;> simp [beforeUpdate, h, bind, Except.bind,
        Except.map, pure, Except.pure]
    cases hcolumns : columnsFromRates narrow block with
    | error e =>
      rw [hcolumns] at hread
      cases hread
    | ok read =>
      rw [hcolumns] at hread
      obtain rfl := Except.ok.inj hread
      exact ⟨rfl, rfl⟩

/-- Token columns with one tier, which replaces what is given. -/
def cliffColumns (input cacheRead : Option ℚ) : RateColumns where
  inputPricePerMillion := 3
  outputPricePerMillion := 15
  pricingTiers := [⟨200000, input, none, cacheRead, none⟩]

theorem fitsColumn_nat (n : ℕ) (h : n < 10 ^ 10) : FitsColumn n := by
  refine ⟨by positivity, ?_, n * 10 ^ columnPlaces, by push_cast; rfl⟩
  rw [columnLimit]
  exact_mod_cast h

theorem carriable_cliff (input cacheRead : Option ℕ) (h : ∀ n ∈ input, n < 10 ^ 10)
    (h' : ∀ n ∈ cacheRead, n < 10 ^ 10) :
    Carriable id (cliffColumns (input.map Nat.cast) (cacheRead.map Nat.cast)) where
  input := fitsColumn_nat 3 (by norm_num)
  output := fitsColumn_nat 15 (by norm_num)
  cacheRead := nofun
  cacheWrite := nofun
  tiers tier htier q hq := by
    obtain rfl := mem_singleton.mp htier
    rcases mem_tierRates.mp hq with hq | hq | hq | hq
    · obtain ⟨n, hn, rfl⟩ := map_eq_some_iff.mp hq
      exact fitsColumn_nat n (h n hn)
    · cases hq
    · obtain ⟨n, hn, rfl⟩ := map_eq_some_iff.mp hq
      exact fitsColumn_nat n (h' n hn)
    · cases hq
  shown _ _ _ := rfl
  positive tier htier := by
    obtain rfl := mem_singleton.mp htier
    exact (by norm_num : (0 : ℤ) < 200000)
  distinct := nodup_singleton _

theorem columns_and_rates_in_step_cliff :
    columnsFromRates id (ratesFromColumns (cliffColumns (some 6) (some 1)))
      = .ok (carried (cliffColumns (some 6) (some 1))) :=
  (columns_and_rates_in_step id (cliffColumns (some 6) (some 1))
    (carriable_cliff (some 6) (some 1) (by simp) (by simp))).1

/-- A block that prices text per token and images. -/
def textAndImages : Fields :=
  [("text", .obj [("input", .obj [("price", .num 3)]), ("output", .obj [("price", .num 15)])]),
    ("image", .obj [("output", .obj [("price", .num (1 / 25)), ("unit", .str "image")])])]

/-- Whether a column write leaves the text price of a block. -/
def keepsText (columns : RateColumns) : Bool :=
  match ratesWithColumns id (some textAndImages) columns with
  | .ok result => (get result "text").isSome
  | .error _ => false

/-- A tier comes back with the base rates beside its own; and columns of a slot that is not the
first priced leave nothing of the block. -/
theorem columns_come_back_filled :
    (∃ columns, columnsFromRates id (ratesFromColumns (cliffColumns none (some 1))) = .ok columns ∧
      columns ≠ cliffColumns none (some 1)) ∧
    keepsText { inputPricePerMillion := 50000, outputPricePerMillion := 0, unit := .image } = false := by
  refine ⟨⟨_, columnsFromRates_fresh (carriable_cliff none (some 1) (by simp) (by simp)), ?_⟩, ?_⟩
  · decide +kernel
  · decide +kernel

end Otari.PriceRates

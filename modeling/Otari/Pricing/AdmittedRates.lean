import Otari.Pricing.EstimateBound
import Otari.Pricing.UsagePricing

/-!
# Pricing — AdmittedRates — a rate the gate admits is one settlement prices

`canPrice` reads the rate and the shape of an endpoint's reports, `priceUsage` the rate and one
report.  Over a stored rate they agree (`gate_agrees`): an admitted rate prices every report of the
shape, and a refused one leaves some report of it unpriced.  A rate with no usable base price is
refused and still prices a slot of its block (`gate_refuses_priced_slot`).
-/

namespace Otari.Metered
open Option

/-- A rate as it is stored: base columns that are never null nor negative, and thresholds that are
JSON values, so no infinity. -/
structure StoredRate extends ModelPricing where
  input_usable : (toDecimal (rates .inputPricePerMillion)).isSome
  output_usable : (toDecimal (rates .outputPricePerMillion)).isSome
  thresholds_finite : ∀ tiers tier, pricingTiers = some tiers → some tier ∈ tiers →
    ∃ threshold, tierThreshold tier = .ok threshold

/-- A report of the shape: its counts are counts and hold the meter, its tokens are there exactly
when the endpoint reports them, and it holds a quantity, none negative, in each unit measured. -/
structure ReportShape.Reports (shape : ReportShape) (report : AttemptReport) : Prop where
  counts : ∃ counts, validatedUnits report.units = .ok counts
  meter : ∀ meter ∈ shape.meter, ∃ value, (meter, value) ∈ report.units
  tokens : shape.reportsTokens = true →
    ∃ usage, report.tokens = some usage ∧ (0 < usage.totalInputTokens ∨ 0 < usage.completionTokens)
  no_tokens : shape.reportsTokens = false → report.tokens = none
  quantities : ∀ unit, shape.measures unit = true → (report.quantities unit).isSome
  nonneg : ∀ unit, ∀ quantity ∈ report.quantities unit, 0 ≤ quantity

/-- The gate and settlement agree on a rate for the reports of a shape. -/
def ReportShape.Agrees (shape : ReportShape) (rate : Option ModelPricing) : Prop :=
  (canPrice rate shape = true → ∀ report, shape.Reports report →
    ∃ charge, priceUsage rate report shape.slot = .ok (some charge)) ∧
  (canPrice rate shape = false → ∃ report, shape.Reports report ∧
    priceUsage rate report shape.slot = .ok none)

/-! ### The counts of a report -/

theorem validatedUnits_lookup {raw : List (String × RawValue)} {counts : Counts}
    (h : validatedUnits raw = .ok counts) {meter : String} (hmeter : meter ∈ reportedMeters)
    {value : RawValue} (hmem : (meter, value) ∈ raw) : ∃ n, counts.lookup meter = some n := by
  induction raw generalizing counts with
  | nil => cases hmem
  | cons entry raw ih =>
    obtain ⟨name, count⟩ := entry
    rw [validatedUnits] at h
    split at h
    · split at h
      · rename_i n _
        obtain ⟨rest, hrest, heq⟩ := bind_eq_ok.mp h
        cases heq
        rcases List.mem_cons.mp hmem with hfirst | hmem
        · obtain ⟨rfl, -⟩ := Prod.mk.inj hfirst
          exact ⟨n, List.lookup_cons_self⟩
        · obtain ⟨k, hk⟩ := ih hrest hmem
          rw [List.lookup_cons]
          split
          · exact ⟨n, rfl⟩
          · exact ⟨k, hk⟩
      · cases h
    · rename_i hunknown
      rcases List.mem_cons.mp hmem with hfirst | hmem
      · obtain ⟨rfl, -⟩ := Prod.mk.inj hfirst
        exact absurd hmeter hunknown
      · exact ih h hmem

/-! ### What each row of the table charges -/

theorem perUnit_isSome (meter : String) (count : ℤ) {unitRate : Option ℚ}
    (h : unitRate.isSome) : ∃ charge, perUnit meter count unitRate = some charge := by
  obtain ⟨rate, rfl⟩ := isSome_iff_exists.mp h
  exact ⟨_, rfl⟩

theorem StoredRate.onePerMillion_isSome (rate : StoredRate) :
    (onePerMillion rate.toModelPricing).isSome := by
  rw [onePerMillion, isSome_map]
  exact rate.input_usable

theorem StoredRate.chargeRequests_isSome (rate : StoredRate) (counts : Counts) :
    ∃ charge, chargeRequests rate.toModelPricing counts = some charge := by
  rw [chargeRequests]
  split
  · exact perUnit_isSome _ _ rate.onePerMillion_isSome
  · split
    · exact perUnit_isSome _ _ rate.onePerMillion_isSome
    · exact perUnit_isSome _ _ rate.onePerMillion_isSome

theorem StoredRate.chargeTokens_used (rate : StoredRate) {usage : BillableUsage}
    (h : 0 < usage.totalInputTokens ∨ 0 < usage.completionTokens) :
    ∃ charge, chargeTokens rate.toModelPricing (some usage) = .ok (some charge) := by
  obtain ⟨input, hinput⟩ := isSome_iff_exists.mp rate.input_usable
  obtain ⟨rates, hrates⟩ := effectiveRates_isOk rate.input_usable rate.output_usable
    rate.thresholds_finite usage.totalInputTokens
  have hused : (some usage).filter (fun u => 0 < u.totalInputTokens || 0 < u.completionTokens)
      = some usage := by
    rw [filter_some, if_pos (by simpa using h)]
  have hpriced : ∃ priced, priceBillableUsage rate.toPricing usage = .ok priced := by
    simp only [priceBillableUsage, priceMeters, hrates, ok_bind]
    exact ⟨_, rfl⟩
  obtain ⟨priced, hpriced⟩ := hpriced
  simp only [chargeTokens, hinput, hused, hpriced]
  exact ⟨_, rfl⟩

variable {rate : ModelPricing} {input : ℚ}

theorem chargeTokens_none (h : toDecimal (rate.rates .inputPricePerMillion) = some input) :
    chargeTokens rate none = .ok (if freeRate rate input then some .free else none) := by
  rw [chargeTokens, h]
  rfl

theorem StoredRate.chargeTokens_free (rate : StoredRate)
    (h : toDecimal (rate.rates .inputPricePerMillion) = some input)
    (hfree : freeRate rate.toModelPricing input = true) (tokens : Option BillableUsage) :
    ∃ charge, chargeTokens rate.toModelPricing tokens = .ok (some charge) := by
  cases hused : tokens.filter fun u => 0 < u.totalInputTokens || 0 < u.completionTokens with
  | none =>
    rw [chargeTokens, h]
    simp only [hused, hfree, if_true]
    exact ⟨_, rfl⟩
  | some usage =>
    obtain ⟨rfl, hpos⟩ := filter_eq_some_iff.mp hused
    exact rate.chargeTokens_used (by simpa using hpos)

variable {shape : ReportShape}

/-- **What a row admits, it charges.** -/
theorem StoredRate.row_charges (rate : StoredRate) {row : MeterRow}
    (hinput : toDecimal (rate.rates .inputPricePerMillion) = some input)
    (hrow : meterFor rate.toModelPricing = some row) {report : AttemptReport}
    (hreport : shape.Reports report) {counts : Counts}
    (hcounts : validatedUnits report.units = .ok counts)
    (hadmits : (row.admits shape.meter shape.reportsTokens
      || (row.tokens && freeRate rate.toModelPricing input)) = true) :
    ∃ charge, row.charge rate.toModelPricing counts report.tokens = .ok (some charge) := by
  rw [meterFor] at hrow
  cases hunit : (rate.unit.map currentUnitName).getD .token with
  | token =>
    rw [hunit] at hrow
    cases hrow
    simp only [MeterRow.admits, Bool.not_true, Bool.false_or, List.not_mem_nil, decide_false,
      any_false, Bool.true_and, Bool.or_eq_true] at hadmits
    rcases hadmits with htokens | hfree
    · obtain ⟨usage, husage, hpos⟩ := hreport.tokens htokens
      rw [husage]
      exact rate.chargeTokens_used hpos
    · exact rate.chargeTokens_free hinput hfree _
  | request =>
    rw [hunit] at hrow
    cases hrow
    obtain ⟨charge, hcharge⟩ := rate.chargeRequests_isSome counts
    exact ⟨charge, congrArg _ hcharge⟩
  | image =>
    rw [hunit] at hrow
    cases hrow
    simp only [MeterRow.admits, Bool.not_true, Bool.false_or, Bool.false_and, Bool.or_false,
      any_eq_true, List.mem_singleton, decide_eq_true_eq] at hadmits
    obtain ⟨_, hmeter, rfl⟩ := hadmits
    obtain ⟨value, hvalue⟩ := hreport.meter _ hmeter
    obtain ⟨n, hn⟩ := validatedUnits_lookup hcounts (by simp [reportedMeters]) hvalue
    obtain ⟨charge, hcharge⟩ :=
      perUnit_isSome imagesMeter n rate.onePerMillion_isSome
    refine ⟨charge, ?_⟩
    simp only [chargeImages, hn, bind_some, hcharge]
  | character | megapixel | second | minute | webSearch =>
    rw [hunit] at hrow
    cases hrow

/-! ### Slots in a measured unit -/

theorem measuredSlot_eq_some {slot : Slot} {unit : PriceUnit}
    (h : measuredSlot rate slot = some unit) :
    ∃ found, slotRate rate slot.1 slot.2 = some found ∧ found.unit = unit := by
  obtain ⟨found, hfound, hunit⟩ := map_eq_some_iff.mp (filter_eq_some_iff.mp h).1
  exact ⟨found, hfound, hunit⟩

theorem priceSlot_isSome {slot : Slot} {found : UnitRate}
    (hfound : slotRate rate slot.1 slot.2 = some found) {quantities : Quantities} {quantity : ℚ}
    (hquantity : quantities found.unit = some quantity) (hnonneg : 0 ≤ quantity) :
    ∃ charge, priceSlot rate slot.1 slot.2 quantities = .ok (some charge) := by
  simp only [priceSlot, hfound, hquantity, if_neg (not_lt.mpr hnonneg)]
  split
  · exact ⟨_, rfl⟩
  · exact ⟨_, rfl⟩

/-! ### The two directions -/

/-- **An admitted rate prices every report of the shape.** -/
theorem StoredRate.admitted_settles (rate : StoredRate)
    (hadmits : canPrice (some rate.toModelPricing) shape = true) {report : AttemptReport}
    (hreport : shape.Reports report) :
    ∃ charge, priceUsage (some rate.toModelPricing) report shape.slot = .ok (some charge) := by
  obtain ⟨input, hinput⟩ := isSome_iff_exists.mp rate.input_usable
  obtain ⟨counts, hcounts⟩ := hreport.counts
  simp only [canPrice, hinput] at hadmits
  simp only [priceUsage, hcounts, ok_bind]
  cases hslot : shape.slot with
  | none =>
    simp only [hslot, bind_none] at hadmits ⊢
    split at hadmits
    · cases hadmits
    · rename_i row hrow
      simp only [hrow]
      exact rate.row_charges hinput hrow hreport hcounts hadmits
  | some slot =>
    simp only [hslot, bind_some] at hadmits ⊢
    cases hmeasured : measuredSlot rate.toModelPricing slot with
    | none =>
      simp only [hmeasured, map_none] at hadmits ⊢
      split at hadmits
      · cases hadmits
      · rename_i row hrow
        simp only [hrow]
        exact rate.row_charges hinput hrow hreport hcounts hadmits
    | some unit =>
      simp only [hmeasured, map_some] at hadmits ⊢
      obtain ⟨found, hfound, rfl⟩ := measuredSlot_eq_some hmeasured
      obtain ⟨quantity, hquantity⟩ :=
        isSome_iff_exists.mp (hreport.quantities _ hadmits)
      exact priceSlot_isSome hfound hquantity (hreport.nonneg _ _ hquantity)

/-- The least a report of the shape holds: one of its meter, one token when it reports tokens, and
nothing of each unit it measures. -/
def ReportShape.least (shape : ReportShape) : AttemptReport where
  tokens := if shape.reportsTokens then some ⟨1, 0, 0, 0, 0⟩ else none
  units := shape.meter.toList.map fun meter => (meter, .int 1)
  quantities unit := if shape.measures unit then some 0 else none

theorem ReportShape.least_counts (shape : ReportShape) : validatedUnits shape.least.units
      = .ok ((shape.meter.filter (· ∈ reportedMeters)).toList.map fun meter => (meter, 1)) := by
  cases hm : shape.meter with
  | none => simp [ReportShape.least, hm, validatedUnits]
  | some meter =>
    by_cases hknown : meter ∈ reportedMeters
    · simp [ReportShape.least, hm, validatedUnits, hknown, wholeCount, maxReportedUnits,
        filter_some]
    · simp [ReportShape.least, hm, validatedUnits, hknown]

theorem ReportShape.reports_least (shape : ReportShape) : shape.Reports shape.least where
  counts := ⟨_, shape.least_counts⟩
  meter meter hmeter := ⟨.int 1, List.mem_map.mpr ⟨meter, by simpa using hmeter, rfl⟩⟩
  tokens h := ⟨_, if_pos h, .inl Int.one_pos⟩
  no_tokens h := if_neg (by simp [h])
  quantities unit h := by simp [ReportShape.least, h]
  nonneg unit quantity h := by
    simp only [ReportShape.least, mem_def, ite_none_right_eq_some,
      Option.some.injEq] at h
    exact h.2.le

theorem row_unpriced (hinput : toDecimal (rate.rates .inputPricePerMillion) = some input)
    (hrefused : (match meterFor rate with
      | none => false
      | some row => row.admits shape.meter shape.reportsTokens
          || (row.tokens && freeRate rate input)) = false) :
    (match meterFor rate with
      | some row => row.charge rate
          ((shape.meter.filter (· ∈ reportedMeters)).toList.map fun meter => (meter, 1))
          shape.least.tokens
      | none => return none) = .ok none := by
  cases hrow : meterFor rate with
  | none => rfl
  | some row =>
    simp only [hrow] at hrefused ⊢
    rw [meterFor] at hrow
    cases hunit : (rate.unit.map currentUnitName).getD .token with
    | token =>
      rw [hunit] at hrow
      cases hrow
      simp only [MeterRow.admits, Bool.not_true, Bool.false_or, List.not_mem_nil, decide_false,
        any_false, Bool.true_and, Bool.or_eq_false_iff] at hrefused
      have htokens : shape.least.tokens = none := if_neg (by simp [hrefused.1])
      simp only [htokens, chargeTokens_none hinput, hrefused.2]
      rfl
    | request =>
      rw [hunit] at hrow
      cases hrow
      simp [MeterRow.admits] at hrefused
    | image =>
      rw [hunit] at hrow
      cases hrow
      simp only [MeterRow.admits, Bool.not_true, Bool.false_or, Bool.false_and, Bool.or_false,
        any_eq_false, List.mem_singleton, decide_eq_false_iff_not] at hrefused
      have hlookup : List.lookup imagesMeter
          ((shape.meter.filter (· ∈ reportedMeters)).toList.map fun meter => (meter, 1))
            = (none : Option ℤ) := by
        cases hm : shape.meter.filter (· ∈ reportedMeters) with
        | none => rfl
        | some meter =>
          have hne : (imagesMeter == meter) = false :=
            beq_eq_false_iff_ne.mpr (Ne.symm (hrefused meter (filter_eq_some_iff.mp hm).1))
          simp [List.lookup_cons, hne]
      simp only [chargeImages, hlookup, bind_none]
    | character | megapixel | second | minute | webSearch =>
      rw [hunit] at hrow
      cases hrow

/-- **A refused rate prices nothing the least report holds.** -/
theorem StoredRate.refused_unpriced (rate : StoredRate)
    (hrefused : canPrice (some rate.toModelPricing) shape = false) :
    priceUsage (some rate.toModelPricing) shape.least shape.slot = .ok none := by
  obtain ⟨input, hinput⟩ := isSome_iff_exists.mp rate.input_usable
  simp only [canPrice, hinput] at hrefused
  simp only [priceUsage, shape.least_counts, ok_bind]
  cases hslot : shape.slot with
  | none =>
    simp only [hslot, bind_none] at hrefused ⊢
    exact row_unpriced hinput hrefused
  | some slot =>
    simp only [hslot, bind_some] at hrefused ⊢
    cases hmeasured : measuredSlot rate.toModelPricing slot with
    | none =>
      simp only [hmeasured, map_none] at hrefused ⊢
      exact row_unpriced hinput hrefused
    | some unit =>
      simp only [hmeasured, map_some] at hrefused ⊢
      obtain ⟨found, hfound, rfl⟩ := measuredSlot_eq_some hmeasured
      simp [priceSlot, hfound, ReportShape.least, hrefused]

/-- **The gate and settlement agree on every stored rate**, and on there being none. -/
theorem gate_agrees (rate : Option StoredRate) (shape : ReportShape) :
    shape.Agrees (rate.map StoredRate.toModelPricing) := by
  cases rate with
  | none =>
    refine ⟨(fun h => by cases h), fun _ => ⟨shape.least, shape.reports_least, ?_⟩⟩
    simp only [priceUsage, shape.least_counts, ok_bind, Option.map_none]
    rfl
  | some rate =>
    exact ⟨fun h report hreport => rate.admitted_settles h hreport,
      fun h => ⟨shape.least, shape.reports_least, rate.refused_unpriced h⟩⟩

/-- An endpoint that bills under image output and measures images. -/
def imageShape : ReportShape where
  meter := none
  reportsTokens := false
  slot := some ("image", .output)
  measures unit := unit = .image

/-- A rate as it is stored, with one tier, and a block that prices an image made. -/
def imageCard : StoredRate where
  modelKey := none
  unit := some (.current .token)
  rates := fun field =>
    if field = .inputPricePerMillion then .decimal 10
    else if field = .outputPricePerMillion then .decimal 0 else .none
  pricingTiers := some [some
    { minInputTokens := some (.int 100000)
      rates := fun field => if field = .inputPricePerMillion then .int 2 else .none }]
  block := some ⟨[("image", ⟨none, some ⟨.int 1, some "image", .none, none, none, []⟩⟩)], none⟩
  input_usable := rfl
  output_usable := rfl
  thresholds_finite := by
    rintro _ tier ⟨⟩ htier
    cases List.mem_singleton.mp htier
    exact ⟨_, rfl⟩

/-- It is of that rate: its images are admitted, and so priced. -/
theorem gate_agrees_imageCard :
    canPrice (some imageCard.toModelPricing) imageShape = true ∧
      imageShape.Agrees (some imageCard.toModelPricing) :=
  ⟨by decide +kernel, gate_agrees (some imageCard) imageShape⟩

/-! ### A rate with no base price -/

/-- A rate that names no base price, and prices an image made at one dollar. -/
def baselessImageRate : ModelPricing where
  modelKey := none
  unit := none
  rates _ := .none
  pricingTiers := none
  block := some ⟨[("image", ⟨none, some ⟨.int 1, some "image", .none, none, none, []⟩⟩)], none⟩

/-- The gate refuses the rate, and settlement prices every report it could have had. -/
theorem gate_refuses_priced_slot : ¬ imageShape.Agrees (some baselessImageRate) := by
  rintro ⟨-, hrefused⟩
  obtain ⟨report, hreport, hnone⟩ := hrefused rfl
  obtain ⟨counts, hcounts⟩ := hreport.counts
  obtain ⟨quantity, hquantity⟩ := Option.isSome_iff_exists.mp (hreport.quantities .image rfl)
  have hslot : measuredSlot baselessImageRate ("image", .output) = some .image := rfl
  obtain ⟨found, hfound, hunit⟩ := measuredSlot_eq_some hslot
  rw [← hunit] at hquantity
  obtain ⟨charge, hcharge⟩ := priceSlot_isSome hfound hquantity (hreport.nonneg _ _ hquantity)
  simp only [priceUsage, hcounts, ok_bind, imageShape, Option.bind_some, hslot, Option.map_some,
    hcharge] at hnone
  cases hnone

end Otari.Metered

import Otari.Pricing.TiersReadBack

/-!
# Pricing — CarriedPrices — what columns read back from their block cost

A tier that comes back holds the base rates it does not replace, and its place among the others may
be another.  Neither shows in a price: a request reaches the same threshold (`firstMax_carried`), at
which the tier gives the rates the base would (`tieredValue_filled`).
-/

namespace Otari.PriceRates
open List
open Metered (RawValue RateField Tier AttemptReport BillableUsage)
open Otari.Pricing (RateColumns PricingTier ModelPricing rawRate)

variable {columns : RateColumns}

/-- The tier replaces a rate, as the writers of tiers ask. -/
def Overrides (tier : PricingTier) : Prop := tierRates tier ≠ []

theorem Overrides.moves {tier : PricingTier} (h : Overrides tier) :
    movesGiven tier = true ∨ movesMadeOnly tier = true := by
  obtain ⟨threshold, input, output, read, write⟩ := tier
  unfold Overrides tierRates at h
  unfold movesMadeOnly movesGiven
  cases input <;> cases output <;> cases read <;> cases write <;> simp at h ⊢

/-! ### The tiers -/

theorem mem_carriedTiers (hboth : pricesBoth columns.unit = true)
    (hover : ∀ tier ∈ columns.pricingTiers, Overrides tier) {tier : PricingTier} :
    tier ∈ carriedTiers columns ↔ tier ∈ columns.pricingTiers.map (filled columns) := by
  unfold carriedTiers
  rw [if_pos hboth, mem_map, mem_map]
  constructor
  · rintro ⟨own, hown, rfl⟩
    rcases mem_append.mp hown with hown | hown
    · exact ⟨own, (mem_filter.mp hown).1, rfl⟩
    · exact ⟨own, (mem_filter.mp hown).1, rfl⟩
  · rintro ⟨own, hown, rfl⟩
    refine ⟨own, mem_append.mpr ?_, rfl⟩
    exact (hover own hown).moves.imp (fun h => mem_filter.mpr ⟨hown, h⟩)
      fun h => mem_filter.mpr ⟨hown, h⟩

def reached (n : ℤ) (tiers : List PricingTier) : List PricingTier :=
  tiers.filter fun tier => tier.minInputTokens ≤ n

theorem reachedTiers_raw (n : ℤ) {tiers : List PricingTier}
    (hpos : ∀ tier ∈ tiers, 0 < tier.minInputTokens) :
    Metered.reachedTiers n (tiers.map fun tier => some tier.raw) =
      .ok ((reached n tiers).map fun tier => (tier.minInputTokens, tier.raw)) := by
  induction tiers with
  | nil => rfl
  | cons tier rest ih =>
    have hrest := ih fun t ht => hpos t (mem_cons_of_mem _ ht)
    have hthreshold : Metered.tierThreshold tier.raw = .ok (some tier.minInputTokens) := by
      have hnonneg := (hpos tier mem_cons_self).le
      simp [Metered.tierThreshold, PricingTier.raw, RawValue.toInt, Except.map, hnonneg]
    rw [map_cons, Metered.reachedTiers, hthreshold, hrest]
    unfold reached
    by_cases hreach : tier.minInputTokens ≤ n
    · rw [filter_cons_of_pos (by simpa using hreach), map_cons]
      exact congrArg Except.ok (if_pos hreach)
    · rw [filter_cons_of_neg (by simpa using hreach)]
      exact congrArg Except.ok (if_neg hreach)

theorem applicableTier_raw (n : ℤ) {tiers : List PricingTier}
    (hpos : ∀ tier ∈ tiers, 0 < tier.minInputTokens) :
    Metered.applicableTier (some (tiers.map fun tier => some tier.raw)) n =
      .ok ((Select.firstMax (fun tier => tier.minInputTokens) (reached n tiers)).map (·.raw)) := by
  unfold Metered.applicableTier
  dsimp only
  rw [reachedTiers_raw n hpos]
  have hmap := Select.firstMax_map Prod.fst
    (fun tier : PricingTier => (tier.minInputTokens, tier.raw)) (reached n tiers)
  simp only [bind, Except.bind, pure, Except.pure, hmap, Option.map_map]
  rfl

theorem firstMax_carried (hboth : pricesBoth columns.unit = true)
    (hover : ∀ tier ∈ columns.pricingTiers, Overrides tier)
    (hdistinct : (columns.pricingTiers.map (·.minInputTokens)).Nodup) (n : ℤ) :
    Select.firstMax (fun tier => tier.minInputTokens) (reached n (carriedTiers columns)) =
      (Select.firstMax (fun tier => tier.minInputTokens)
        (reached n columns.pricingTiers)).map (filled columns) := by
  have hmap : Select.firstMax (fun tier => tier.minInputTokens)
      ((reached n columns.pricingTiers).map (filled columns)) =
        (Select.firstMax (fun tier => tier.minInputTokens) (reached n columns.pricingTiers)).map
          (filled columns) := Select.firstMax_map _ (filled columns) _
  rw [← hmap]
  have hmem : ∀ tier, tier ∈ reached n (carriedTiers columns) ↔
      tier ∈ (reached n columns.pricingTiers).map (filled columns) := by
    intro tier
    unfold reached
    rw [mem_filter, mem_carriedTiers hboth hover, mem_map, mem_map]
    constructor
    · rintro ⟨⟨own, hown, rfl⟩, hreach⟩
      exact ⟨own, mem_filter.mpr ⟨hown, hreach⟩, rfl⟩
    · rintro ⟨own, hown, rfl⟩
      exact ⟨⟨own, (mem_filter.mp hown).1, rfl⟩, (mem_filter.mp hown).2⟩
  refine Select.firstMax_congr hmem fun a ha b hb hkey => ?_
  obtain ⟨own, hown, rfl⟩ := mem_map.mp ((hmem a).mp ha)
  obtain ⟨other, hother, rfl⟩ := mem_map.mp ((hmem b).mp hb)
  have hin := (mem_filter.mp hown).1
  have hin' := (mem_filter.mp hother).1
  rw [inj_on_of_nodup_map hdistinct hin hin' hkey]

/-! ### The rates -/

section
variable {row : ModelPricing}

def carriedRow (row : ModelPricing) : ModelPricing := { row with columns := carried row.columns }

theorem raw_carried (hboth : pricesBoth columns.unit = true) : (carried columns).raw = columns.raw := by
  funext field
  cases field <;> simp [RateColumns.raw, carried, hboth]

theorem toDecimal_rawRate_or (q : Option ℚ) (b : ℚ) :
    (Metered.toDecimal (rawRate (q.or (some b)))).or (Metered.toDecimal (.decimal b)) =
      (Metered.toDecimal (rawRate q)).or (Metered.toDecimal (.decimal b)) := by
  cases q with
  | none =>
    have hnone : Metered.toDecimal (rawRate none) = none := rfl
    rw [Option.none_or, hnone, Option.none_or, rawRate, Option.or_self]
  | some r => rw [Option.some_or]

theorem tieredValue_filled (hboth : pricesBoth row.columns.unit = true) (tier : PricingTier)
    (field : RateField) :
    Metered.tieredValue (carriedRow row).rate.toPricing (some (filled row.columns tier).raw) field =
      Metered.tieredValue row.rate.toPricing (some tier.raw) field := by
  have hraw : (carriedRow row).rate.toPricing.rates = row.rate.toPricing.rates :=
    raw_carried hboth
  unfold Metered.tieredValue
  rw [hraw, Option.bind_some, Option.bind_some]
  cases field with
  | inputPricePerMillion => exact toDecimal_rawRate_or _ _
  | outputPricePerMillion =>
    simp only [PricingTier.raw, filled, if_pos hboth]
    exact toDecimal_rawRate_or _ _
  | cacheReadPricePerMillion => rfl
  | cacheWritePricePerMillion => rfl

theorem ratesAt_carried (hboth : pricesBoth row.columns.unit = true) (tier : Option PricingTier) :
    Metered.ratesAt (carriedRow row).rate.toPricing
        ((tier.map (filled row.columns)).map fun tier => tier.raw) =
      Metered.ratesAt row.rate.toPricing (tier.map fun tier => tier.raw) := by
  have hraw : (carriedRow row).rate.toPricing.rates = row.rate.toPricing.rates :=
    raw_carried hboth
  have hclaude : Metered.isClaude (carriedRow row).rate.toPricing
      = Metered.isClaude row.rate.toPricing := rfl
  have hvalues : Metered.tieredValue (carriedRow row).rate.toPricing
        ((tier.map (filled row.columns)).map fun tier => tier.raw) =
      Metered.tieredValue row.rate.toPricing (tier.map fun tier => tier.raw) := by
    funext field
    cases tier with
    | none =>
      unfold Metered.tieredValue
      rw [hraw]
      rfl
    | some tier => exact tieredValue_filled hboth tier field
  unfold Metered.ratesAt
  rw [hvalues, hclaude]

theorem effectiveRates_carried (hboth : pricesBoth row.columns.unit = true)
    (hover : ∀ tier ∈ row.columns.pricingTiers, Overrides tier)
    (hpos : ∀ tier ∈ row.columns.pricingTiers, 0 < tier.minInputTokens)
    (hdistinct : (row.columns.pricingTiers.map (·.minInputTokens)).Nodup) (n : ℤ) :
    Metered.effectiveRates (carriedRow row).rate.toPricing n =
      Metered.effectiveRates row.rate.toPricing n := by
  have hposCarried : ∀ tier ∈ carriedTiers row.columns, 0 < tier.minInputTokens := by
    intro tier htier
    obtain ⟨own, hown, rfl⟩ := mem_map.mp ((mem_carriedTiers hboth hover).mp htier)
    exact hpos own hown
  have hcarried : Metered.applicableTier (carriedRow row).rate.toPricing.pricingTiers n =
      .ok (((Select.firstMax (fun tier => tier.minInputTokens)
        (reached n row.columns.pricingTiers)).map (filled row.columns)).map (·.raw)) := by
    rw [← firstMax_carried hboth hover hdistinct]
    exact applicableTier_raw n hposCarried
  have hown : Metered.applicableTier row.rate.toPricing.pricingTiers n =
      .ok ((Select.firstMax (fun tier => tier.minInputTokens)
        (reached n row.columns.pricingTiers)).map (·.raw)) := applicableTier_raw n hpos
  unfold Metered.effectiveRates
  rw [hcarried, hown]
  exact ratesAt_carried hboth _

/-! ### What is charged -/

theorem freeRate_carried (hboth : pricesBoth row.columns.unit = true)
    (hover : ∀ tier ∈ row.columns.pricingTiers, Overrides tier) {inputRate : ℚ}
    (hrate : Metered.toDecimal (row.rate.rates .inputPricePerMillion) = some inputRate) :
    Metered.freeRate (carriedRow row).rate inputRate = Metered.freeRate row.rate inputRate := by
  have hraw : (carriedRow row).rate.rates = row.rate.rates := raw_carried hboth
  have htiers : ∀ tiers : List PricingTier,
      (((some (tiers.map fun tier => some tier.raw)).getD []).reduceOption : List Tier) =
        tiers.map fun tier => tier.raw := by
    intro tiers
    rw [Option.getD_some, List.reduceOption, filterMap_map]
    exact congrFun filterMap_eq_map tiers
  unfold Metered.freeRate
  dsimp only
  rw [hraw]
  by_cases hzero : inputRate = 0
  swap
  · simp [hzero]
  by_cases hbase : [RateField.outputPricePerMillion, .cacheReadPricePerMillion,
      .cacheWritePricePerMillion].all (fun name => Metered.chargesNothing (row.rate.rates name)) = true
  swap
  · simp only [Bool.not_eq_true] at hbase
    simp only [hbase, Bool.and_false, Bool.false_and]
  -- the base is free, so what the tiers do not replace is
  have hinput : Metered.chargesNothing (.decimal row.columns.inputPricePerMillion) = true := by
    have hread : Metered.toDecimal (.decimal row.columns.inputPricePerMillion) = some 0 :=
      hrate.trans (congrArg some hzero)
    simp [Metered.chargesNothing, hread]
  have houtput : Metered.chargesNothing (.decimal row.columns.outputPricePerMillion) = true :=
    all_eq_true.mp hbase _ mem_cons_self
  have hor : ∀ (q : Option ℚ) (b : ℚ), Metered.chargesNothing (.decimal b) = true →
      Metered.chargesNothing (rawRate (q.or (some b))) = Metered.chargesNothing (rawRate q) := by
    intro q b hb
    cases q with
    | none => exact hb
    | some r => rfl
  have hfilled : ∀ (tier : PricingTier) (field : RateField),
      Metered.chargesNothing ((filled row.columns tier).raw.rates field) =
        Metered.chargesNothing (tier.raw.rates field) := by
    intro tier field
    cases field with
    | inputPricePerMillion => exact hor _ _ hinput
    | outputPricePerMillion =>
      simp only [PricingTier.raw, filled, if_pos hboth]
      exact hor _ _ houtput
    | cacheReadPricePerMillion => rfl
    | cacheWritePricePerMillion => rfl
  have hall : ((carriedTiers row.columns).map fun tier => tier.raw).all (fun tier =>
        [RateField.inputPricePerMillion, .outputPricePerMillion, .cacheReadPricePerMillion,
          .cacheWritePricePerMillion].all fun name => Metered.chargesNothing (tier.rates name)) =
      (row.columns.pricingTiers.map fun tier => tier.raw).all (fun tier =>
        [RateField.inputPricePerMillion, .outputPricePerMillion, .cacheReadPricePerMillion,
          .cacheWritePricePerMillion].all fun name => Metered.chargesNothing (tier.rates name)) := by
    rw [Bool.eq_iff_iff, all_map, all_map, all_eq_true, all_eq_true]
    constructor
    · intro h tier htier
      have hin := (mem_carriedTiers hboth hover).mpr (mem_map_of_mem htier)
      simpa only [Function.comp_apply, hfilled] using h _ hin
    · intro h tier htier
      obtain ⟨own, hown, rfl⟩ := mem_map.mp ((mem_carriedTiers hboth hover).mp htier)
      simpa only [Function.comp_apply, hfilled] using h own hown
  have hcarried : (((carriedRow row).rate.pricingTiers.getD []).reduceOption : List Tier) =
      (carriedTiers row.columns).map fun tier => tier.raw := htiers _
  have hown : ((row.rate.pricingTiers.getD []).reduceOption : List Tier) =
      row.columns.pricingTiers.map fun tier => tier.raw := htiers _
  rw [hcarried, hown, hall]
  rfl

/-- **Nothing costs otherwise** at the columns a block of columns gives: the same charge, with the
same meters and lines, for every report. -/
theorem priceUsage_carried (hboth : pricesBoth row.columns.unit = true)
    (hover : ∀ tier ∈ row.columns.pricingTiers, Overrides tier)
    (hpos : ∀ tier ∈ row.columns.pricingTiers, 0 < tier.minInputTokens)
    (hdistinct : (row.columns.pricingTiers.map (·.minInputTokens)).Nodup)
    (report : AttemptReport) (slot : Option Metered.Slot) :
    Metered.priceUsage (some (carriedRow row).rate) report slot =
      Metered.priceUsage (some row.rate) report slot := by
  have hraw : (carriedRow row).rate.rates = row.rate.rates := raw_carried hboth
  have hbillable : ∀ usage : BillableUsage,
      Metered.priceBillableUsage (carriedRow row).rate.toPricing usage =
        Metered.priceBillableUsage row.rate.toPricing usage := by
    intro usage
    unfold Metered.priceBillableUsage Metered.priceMeters
    rw [effectiveRates_carried hboth hover hpos hdistinct]
  have htokens : ∀ tokens, Metered.chargeTokens (carriedRow row).rate tokens =
      Metered.chargeTokens row.rate tokens := by
    intro tokens
    unfold Metered.chargeTokens
    rw [hraw]
    cases hrate : Metered.toDecimal (row.rate.rates .inputPricePerMillion) with
    | none => rfl
    | some inputRate =>
      simp only [freeRate_carried hboth hover hrate, hbillable]
  have hper : Metered.onePerMillion (carriedRow row).rate = Metered.onePerMillion row.rate := by
    unfold Metered.onePerMillion
    rw [hraw]
  have hmeter : Metered.meterFor (carriedRow row).rate = Metered.meterFor row.rate := rfl
  have hmeasured : ∀ slot, Metered.measuredSlot (carriedRow row).rate slot =
      Metered.measuredSlot row.rate slot := fun _ => rfl
  have hcharge : ∀ (m : Metered.MeterRow), Metered.meterFor row.rate = some m → ∀ counts tokens,
      m.charge (carriedRow row).rate counts tokens = m.charge row.rate counts tokens := by
    intro m hm counts tokens
    unfold Metered.meterFor Metered.meters at hm
    split at hm
    · obtain rfl := Option.some.inj hm
      exact htokens tokens
    · obtain rfl := Option.some.inj hm
      simp only [Metered.chargeRequests, hper]
    · obtain rfl := Option.some.inj hm
      simp only [Metered.chargeImages, hper]
    · cases hm
  have hslot : ∀ slot, Metered.priceSlot (carriedRow row).rate slot = Metered.priceSlot row.rate slot :=
    fun _ => rfl
  unfold Metered.priceUsage
  cases Metered.validatedUnits report.units with
  | error e => rfl
  | ok counts =>
    simp only [bind, Except.bind, hmeasured, hmeter, hslot]
    split
    · rfl
    · cases hm : Metered.meterFor row.rate with
      | none => rfl
      | some m => exact hcharge m hm counts report.tokens

end

end Otari.PriceRates

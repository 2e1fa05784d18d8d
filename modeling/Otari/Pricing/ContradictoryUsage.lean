import Otari.Pricing.EstimateBound

/-!
# Pricing — ContradictoryUsage — what a prompt bills at when its caches outnumber it

An inclusive report whose cache reads and writes exceed its prompt cannot be right.
`billable_usage` drops its cached buckets and bills the whole prompt at the input rate.

An `Attribution` is a way the prompt could be made up within the reported counts.
`NeverUndercharges` says that the report settles at no less than any attribution, on the input side
and rounded as a whole.  `contradictory_undercharges` says exactly when: no slice that the report
counts has a rate above the input rate.  A write rate above it is the usual one, and
`write_premium_undercharged` is such a card.
-/

namespace Otari.Metered

/-! ### Attributions -/

/-- A contradictory report in the inclusive convention. -/
structure UsageReport.Contradictory (report : UsageReport) : Prop where
  included : report.cacheTokensIncluded = true
  exceeds : max report.inputTokens 0 < max report.cacheReadTokens 0 + max report.cacheWriteTokens 0

/-- The prompt of a report as read, written and uncached slices, none above its reported count. -/
structure Attribution (report : UsageReport) where
  read : ℕ
  write : ℕ
  oneHour : ℕ
  read_le : (read : ℤ) ≤ max report.cacheReadTokens 0
  write_le : (write : ℤ) ≤ max report.cacheWriteTokens 0
  oneHour_le : (oneHour : ℤ) ≤ max report.cacheWrite1hTokens 0
  oneHour_le_write : oneHour ≤ write
  cached_le : (read : ℤ) + write ≤ max report.inputTokens 0

variable {report : UsageReport}

def Attribution.usage (a : Attribution report) : BillableUsage where
  totalInputTokens := max report.inputTokens 0
  completionTokens := max report.outputTokens 0
  cacheReadTokens := a.read
  cacheWriteTokens := a.write
  cacheWrite1hTokens := a.oneHour

theorem Attribution.usage_wellFormed (a : Attribution report) : a.usage.WellFormed where
  read_nonneg := Int.natCast_nonneg _
  write_nonneg := Int.natCast_nonneg _
  oneHour_nonneg := Int.natCast_nonneg _
  oneHour_le := Int.ofNat_le.mpr a.oneHour_le_write
  cached_le := a.cached_le
  completion_nonneg := le_max_right _ _

theorem UsageReport.Contradictory.billable (h : report.Contradictory) : billableUsage report =
      { totalInputTokens := max report.inputTokens 0
        completionTokens := max report.outputTokens 0
        cacheReadTokens := 0
        cacheWriteTokens := 0
        cacheWrite1hTokens := 0 } := by
  unfold billableUsage
  simp [h.included, h.exceeds]

/-! ### What the input costs -/

def inputCost (lines : List ChargeLine) : ℚ :=
  ((lines.filter fun line => line.meter ≠ .output).map ChargeLine.cost).sum

theorem Charged.charge_inputCost (acc : Charged) (meter : Meter) (units : ℤ) (rate : ℚ) :
    inputCost (acc.charge meter units rate).lines =
      inputCost acc.lines + if meter = .output then 0 else meterCost units rate := by
  by_cases hu : units = 0
  · simp [Charged.charge, hu]
  · by_cases hm : meter = .output
    · simp [Charged.charge, hu, hm, inputCost]
    · simp [Charged.charge, hu, hm, inputCost]

theorem Charged.chargeSome_inputCost {acc : Charged} {meter : Meter} {units : ℤ} {rate : Option ℚ}
    (hm : meter ≠ .output) : inputCost (acc.chargeSome meter units rate).lines =
      inputCost acc.lines + meterSome units rate := by
  cases rate with
  | none => simp [Charged.chargeSome, meterSome]
  | some r => simp [Charged.chargeSome, Charged.charge_inputCost, hm, meterSome]

theorem chargeMeters_inputCost (rates : Rates) (usage : BillableUsage) :
    inputCost (chargeMeters rates usage).lines =
      meterCost (freshInputTokens rates usage) rates.inputPricePerMillion
        + meterSome usage.cacheReadTokens rates.cacheReadPricePerMillion
        + meterSome (usage.cacheWriteTokens - oneHourWriteTokens rates usage)
            rates.cacheWritePricePerMillion
        + meterSome (oneHourWriteTokens rates usage) rates.cacheWrite1hPricePerMillion := by
  unfold chargeMeters
  dsimp only
  rw [Charged.chargeSome_inputCost (by decide), Charged.chargeSome_inputCost (by decide),
    Charged.chargeSome_inputCost (by decide), Charged.charge_inputCost, Charged.charge_inputCost]
  simp [inputCost]

theorem chargeMeters_cost_eq (rates : Rates) (usage : BillableUsage) :
    (chargeMeters rates usage).cost = inputCost (chargeMeters rates usage).lines +
      meterCost usage.completionTokens rates.outputPricePerMillion := by
  rw [chargeMeters_cost, chargeMeters_inputCost]
  ring

/-! ### When the clamp is the dearest -/

/-- The report settles at no less than any attribution of its prompt. -/
def NeverUndercharges (pricing : Pricing) (report : UsageReport) : Prop :=
  ∀ settled, priceBillableUsage pricing (billableUsage report) = .ok settled →
    ∀ (a : Attribution report) (priced : Priced), priceBillableUsage pricing a.usage = .ok priced →
      inputCost priced.lines ≤ inputCost settled.lines ∧ priced.cost ≤ settled.cost

/-- No slice the report counts is dearer than uncached input, or there is no prompt. -/
def InputRateDearest (rates : Rates) (report : UsageReport) : Prop :=
  0 < report.inputTokens →
    (0 < report.cacheReadTokens →
      ∀ r ∈ rates.cacheReadPricePerMillion, r ≤ rates.inputPricePerMillion) ∧
    (0 < report.cacheWriteTokens →
      ∀ r ∈ rates.cacheWritePricePerMillion, r ≤ rates.inputPricePerMillion) ∧
    (0 < report.cacheWriteTokens → 0 < report.cacheWrite1hTokens →
      ∀ r ∈ rates.cacheWrite1hPricePerMillion, r ≤ rates.inputPricePerMillion)

variable {pricing : Pricing} {rates : Rates}

theorem UsageReport.Contradictory.inputCost_eq (h : report.Contradictory) (rates : Rates) :
    inputCost (chargeMeters rates (billableUsage report)).lines =
      meterCost ((max report.inputTokens 0 : ℤ) : ℚ) rates.inputPricePerMillion := by
  have hsome : ∀ rate : Option ℚ, meterSome 0 rate = 0 := by
    intro rate
    cases rate <;> simp [meterSome]
  rw [chargeMeters_inputCost, h.billable]
  simp [freshInputTokens, oneHourWriteTokens, hsome]

theorem Attribution.inputCost_le (a : Attribution report) (hr : rates.HourPriced)
    (h : InputRateDearest rates report) : inputCost (chargeMeters rates a.usage).lines ≤
      meterCost ((max report.inputTokens 0 : ℤ) : ℚ) rates.inputPricePerMillion := by
  obtain ⟨hh₀, hh₁⟩ := oneHourWriteTokens_bounds rates a.usage_wellFormed
  have hcached := a.cached_le
  have hread : meterSome a.usage.cacheReadTokens rates.cacheReadPricePerMillion ≤
      meterCost (pricedUnits a.usage.cacheReadTokens rates.cacheReadPricePerMillion)
        rates.inputPricePerMillion := by
    refine meterSome_le a.usage_wellFormed.read_nonneg _ (or_iff_not_imp_left.mpr fun hne => ?_)
    have hle := a.read_le
    have hpos : (a.read : ℤ) ≠ 0 := hne
    exact (h (by omega)).1 (by omega)
  have hwrite : meterSome (a.usage.cacheWriteTokens - oneHourWriteTokens rates a.usage)
      rates.cacheWritePricePerMillion ≤
      meterCost (pricedUnits (a.usage.cacheWriteTokens - oneHourWriteTokens rates a.usage)
        rates.cacheWritePricePerMillion) rates.inputPricePerMillion := by
    refine meterSome_le (sub_nonneg.mpr hh₁) _ (or_iff_not_imp_left.mpr fun hne => ?_)
    have hle := a.write_le
    have hpos : (a.write : ℤ) - oneHourWriteTokens rates a.usage ≠ 0 := hne
    have hwithin : oneHourWriteTokens rates a.usage ≤ a.write := hh₁
    exact (h (by omega)).2.1 (by omega)
  have hhour : meterSome (oneHourWriteTokens rates a.usage) rates.cacheWrite1hPricePerMillion ≤
      meterCost (pricedUnits (oneHourWriteTokens rates a.usage) rates.cacheWrite1hPricePerMillion)
        rates.inputPricePerMillion := by
    refine meterSome_le hh₀ _ (or_iff_not_imp_left.mpr fun hne => ?_)
    have hle : (a.write : ℤ) ≤ _ := a.write_le
    have hhour := a.oneHour_le
    have hbound : oneHourWriteTokens rates a.usage ≤ a.oneHour := by
      unfold oneHourWriteTokens
      split
      · exact le_rfl
      · exact Int.natCast_nonneg _
    have hwithin : oneHourWriteTokens rates a.usage ≤ a.write := hh₁
    exact (h (by omega)).2.2 (by omega) (by omega)
  have htotal := congrArg (fun n : ℤ => meterCost n rates.inputPricePerMillion)
    (total_eq_buckets hr a.usage)
  push_cast [meterCost_add] at htotal
  rw [chargeMeters_inputCost]
  calc _ ≤ _ := add_le_add (add_le_add (add_le_add le_rfl hread) hwrite) hhour
    _ = _ := htotal.symm

theorem InputRateDearest.of_le (hr : rates.HourPriced)
    (h : ∀ a : Attribution report, inputCost (chargeMeters rates a.usage).lines ≤
      meterCost ((max report.inputTokens 0 : ℤ) : ℚ) rates.inputPricePerMillion) :
    InputRateDearest rates report := by
  intro hn
  have hmax : max report.inputTokens 0 = report.inputTokens := max_eq_left hn.le
  refine ⟨fun hread r hrate => ?_, fun hwrite r hrate => ?_, fun hwrite hhour r hrate => ?_⟩
  · have hle := h ⟨1, 0, 0, by omega, by omega, by omega, le_rfl, by omega⟩
    rw [Option.mem_def] at hrate
    simp only [chargeMeters_inputCost, freshInputTokens, oneHourWriteTokens, Attribution.usage,
      hrate, hmax] at hle
    simp [meterSome, meterCost, tokensPerPricingUnit] at hle
    cases hw : rates.cacheWritePricePerMillion <;>
      cases hh : rates.cacheWrite1hPricePerMillion <;> simp [hw, hh] at hle <;> linarith
  · have hle := h ⟨0, 1, 0, by omega, by omega, by omega, by omega, by omega⟩
    rw [Option.mem_def] at hrate
    simp only [chargeMeters_inputCost, freshInputTokens, oneHourWriteTokens, Attribution.usage,
      hrate, hmax] at hle
    cases hc : rates.cacheReadPricePerMillion <;>
      cases hh : rates.cacheWrite1hPricePerMillion <;>
      simp [hc, hh, meterSome, meterCost, tokensPerPricingUnit] at hle <;> linarith
  · have hle := h ⟨0, 1, 1, by omega, by omega, by omega, le_rfl, by omega⟩
    rw [Option.mem_def] at hrate
    obtain ⟨w, hw⟩ := Option.isSome_iff_exists.mp (hr (by rw [hrate]; rfl))
    simp only [chargeMeters_inputCost, freshInputTokens, oneHourWriteTokens, Attribution.usage,
      hrate, hmax, hw] at hle
    cases hc : rates.cacheReadPricePerMillion <;>
      simp [hc, meterSome, meterCost, tokensPerPricingUnit] at hle <;> linarith

theorem priceBillableUsage_of_rates {usage : BillableUsage}
    (h : effectiveRates pricing usage.totalInputTokens = .ok rates) :
    ∃ priced, priceBillableUsage pricing usage = .ok priced ∧
      priced.lines = (chargeMeters rates usage).lines ∧
      priced.cost = quantizeCost (chargeMeters rates usage).cost := by
  unfold priceBillableUsage priceMeters
  rw [h]
  exact ⟨_, rfl, rfl, rfl⟩

/-- **A contradictory report never under-charges exactly when no slice it counts is dearer than
uncached input.** -/
theorem contradictory_undercharges (pricing : Pricing) (report : UsageReport) (rates : Rates)
    (hcontra : report.Contradictory)
    (hrates : effectiveRates pricing (max report.inputTokens 0) = .ok rates) :
    NeverUndercharges pricing report ↔ InputRateDearest rates report := by
  have hsettles : effectiveRates pricing (billableUsage report).totalInputTokens = .ok rates := by
    rw [hcontra.billable]
    exact hrates
  obtain ⟨settled, hsettled, hlines, hcost⟩ := priceBillableUsage_of_rates hsettles
  have hr := effectiveRates_hourPriced hrates
  constructor
  · intro h
    refine InputRateDearest.of_le hr fun a => ?_
    have harates : effectiveRates pricing a.usage.totalInputTokens = .ok rates := hrates
    obtain ⟨priced, hpriced, halines, -⟩ := priceBillableUsage_of_rates harates
    have hle := (h settled hsettled a priced hpriced).1
    rwa [hlines, halines, hcontra.inputCost_eq] at hle
  · intro h settled' hsettled' a priced hpriced
    obtain rfl : settled' = settled := Except.ok.inj (hsettled'.symm.trans hsettled)
    obtain ⟨rates', hrates', hacost, halines⟩ := priceBillableUsage_ok hpriced
    obtain rfl : rates' = rates := Except.ok.inj (hrates'.symm.trans hrates)
    have hle := a.inputCost_le hr h
    rw [← hcontra.inputCost_eq rates'] at hle
    refine ⟨by rwa [hlines, halines], ?_⟩
    rw [hacost, hcost, chargeMeters_cost_eq, chargeMeters_cost_eq]
    refine Rounding.quantize_mono _ (add_le_add hle ?_)
    rw [hcontra.billable]
    exact le_rfl

/-! ### Runs -/

/-- The card of a Claude model: a write costs a quarter more than input, for an hour twice as
much. -/
def writePremiumCard : Pricing where
  modelKey := some ['a', ':', 'c', 'l', 'a', 'u', 'd', 'e']
  unit := none
  rates
    | .inputPricePerMillion => .decimal 3
    | .outputPricePerMillion => .decimal 15
    | .cacheReadPricePerMillion => .decimal (3 / 10)
    | .cacheWritePricePerMillion => .decimal (15 / 4)
  pricingTiers := none

/-- A prompt of a thousand tokens said to have written more than it holds. -/
def overwrittenReport (inputTokens cacheReadTokens : ℤ) : UsageReport where
  inputTokens := inputTokens
  outputTokens := 0
  cacheTokensIncluded := true
  cacheReadTokens := cacheReadTokens
  cacheWriteTokens := if cacheReadTokens = 0 then 1200 else 0

theorem contradictory_undercharges_read :
    NeverUndercharges writePremiumCard (overwrittenReport 1000 1200) :=
  (contradictory_undercharges writePremiumCard (overwrittenReport 1000 1200)
    ⟨3, 15, some (3 / 10), some (15 / 4), some 6⟩ ⟨rfl, by decide⟩ (by decide +kernel)).mpr
    fun _ => ⟨fun _ r hr => by cases hr; norm_num, fun h => absurd h (by decide),
      fun h => absurd h (by decide)⟩

/-- **A write premium is lost.**  All of the prompt written settles at three tenths of a cent, and
was worth three eighths. -/
theorem write_premium_undercharged : (overwrittenReport 1000 0).Contradictory ∧
      ¬ NeverUndercharges writePremiumCard (overwrittenReport 1000 0) := by
  refine ⟨⟨rfl, by decide⟩, fun h => ?_⟩
  have hle := (h _ rfl ⟨0, 1000, 0, by decide, by decide, by decide, by decide, by decide⟩ _ rfl).2
  revert hle
  decide +kernel

end Otari.Metered

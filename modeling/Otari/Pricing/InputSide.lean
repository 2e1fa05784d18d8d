import Otari.Pricing.MeteredPricing

/-!
# Pricing — InputSide — every input token is billed once

The meters `billableUsage` produces are well formed (`billableUsage_wellFormed`): the cached buckets
lie inside the total and the 1-hour writes inside the writes.  From that, the input-side lines of
`chargeMeters` are nonnegative and sum to the total, whichever rates the card carries
(`chargeMeters_inputUnits`).  The two counting conventions normalize to the same meters
(`billableUsage_conventions`), so they settle alike.
-/

namespace Otari.Metered

/-! ### Well-formed meters -/

/-- The buckets of a usage event fit into each other. -/
structure BillableUsage.WellFormed (usage : BillableUsage) : Prop where
  read_nonneg : 0 ≤ usage.cacheReadTokens
  write_nonneg : 0 ≤ usage.cacheWriteTokens
  oneHour_nonneg : 0 ≤ usage.cacheWrite1hTokens
  oneHour_le : usage.cacheWrite1hTokens ≤ usage.cacheWriteTokens
  cached_le : usage.cacheReadTokens + usage.cacheWriteTokens ≤ usage.totalInputTokens
  completion_nonneg : 0 ≤ usage.completionTokens

variable {usage : BillableUsage}

theorem BillableUsage.WellFormed.total_nonneg (h : usage.WellFormed) : 0 ≤ usage.totalInputTokens :=
  (add_nonneg h.read_nonneg h.write_nonneg).trans h.cached_le

theorem billableUsage_wellFormed (report : UsageReport) : (billableUsage report).WellFormed := by
  have hw := le_max_right report.cacheWriteTokens 0
  have hr := le_max_right report.cacheReadTokens 0
  have hp := le_max_right report.inputTokens 0
  have hh := le_max_right report.cacheWrite1hTokens 0
  have ho := le_max_right report.outputTokens 0
  unfold billableUsage
  dsimp only
  split
  · exact ⟨hr, hw, le_min hh hw, min_le_right _ _, by linarith, ho⟩
  · split
    · exact ⟨le_rfl, le_rfl, le_rfl, le_rfl, by simp, ho⟩
    · rename_i hle
      exact ⟨hr, hw, le_min hh hw, min_le_right _ _, not_lt.mp hle, ho⟩

/-- What the provider says went in: the prompt, and beside it the cached buckets the prompt does not
already count. -/
def UsageReport.totalInput (report : UsageReport) : ℤ :=
  max report.inputTokens 0 +
    if report.cacheTokensIncluded then 0
    else max report.cacheReadTokens 0 + max report.cacheWriteTokens 0

theorem billableUsage_total (report : UsageReport) :
    (billableUsage report).totalInputTokens = report.totalInput := by
  unfold billableUsage UsageReport.totalInput
  cases report.cacheTokensIncluded with
  | false => simp [add_assoc]
  | true =>
    simp only [Bool.not_true, Bool.false_eq_true, if_false, if_true, add_zero]
    split <;> rfl

/-! ### The charges of one event -/

/-- A 1-hour write has a rate of its own only where writes have one. -/
def Rates.HourPriced (rates : Rates) : Prop :=
  rates.cacheWrite1hPricePerMillion.isSome → rates.cacheWritePricePerMillion.isSome

variable {pricing : Pricing} {rates : Rates}

theorem effectiveRates_ok {n : ℤ} (h : effectiveRates pricing n = .ok rates) :
    ∃ tier inputRate outputRate, applicableTier pricing.pricingTiers n = .ok tier ∧
      tieredValue pricing tier .inputPricePerMillion = some inputRate ∧
      tieredValue pricing tier .outputPricePerMillion = some outputRate ∧ rates =
        { inputPricePerMillion := inputRate
          outputPricePerMillion := outputRate
          cacheReadPricePerMillion := tieredValue pricing tier .cacheReadPricePerMillion
          cacheWritePricePerMillion := tieredValue pricing tier .cacheWritePricePerMillion
          cacheWrite1hPricePerMillion :=
            if (tieredValue pricing tier .cacheWritePricePerMillion).getD 0 ≠ 0 ∧
                isClaude pricing then
              some (inputRate * claude1hCacheWriteInputMultiple)
            else none } := by
  unfold effectiveRates at h
  cases ht : applicableTier pricing.pricingTiers n with
  | error e => rw [ht] at h; cases h
  | ok tier =>
    rw [ht, ok_bind] at h
    unfold ratesAt at h
    dsimp only at h
    split at h
    · rename_i inputRate outputRate hi ho
      cases h
      exact ⟨tier, inputRate, outputRate, rfl, hi, ho, rfl⟩
    · cases h

theorem effectiveRates_hourPriced {n : ℤ}
    (h : effectiveRates pricing n = .ok rates) : rates.HourPriced := by
  obtain ⟨tier, inputRate, outputRate, -, -, -, rfl⟩ := effectiveRates_ok h
  intro hs
  dsimp only at hs ⊢
  cases hw : tieredValue pricing tier .cacheWritePricePerMillion with
  | some _ => rfl
  | none => simp [hw] at hs

def inputUnits (lines : List ChargeLine) : ℤ :=
  ((lines.filter fun line => line.meter ≠ .output).map ChargeLine.units).sum

/-- No line of the input side counts below zero. -/
def InputNonneg (lines : List ChargeLine) : Prop :=
  ∀ line ∈ lines, line.meter ≠ .output → 0 ≤ line.units

theorem Charged.charge_inputUnits (acc : Charged) (meter : Meter) (units : ℤ) (rate : ℚ) :
    inputUnits (acc.charge meter units rate).lines =
      inputUnits acc.lines + if meter = .output then 0 else units := by
  by_cases hu : units = 0
  · simp [Charged.charge, hu]
  · by_cases hm : meter = .output
    · simp [Charged.charge, hu, hm, inputUnits]
    · simp [Charged.charge, hu, hm, inputUnits]

variable {acc : Charged} {units : ℤ}

theorem Charged.chargeSome_inputUnits {meter : Meter} {rate : Option ℚ} (hm : meter ≠ .output) :
    inputUnits (acc.chargeSome meter units rate).lines =
      inputUnits acc.lines + if rate.isSome then units else 0 := by
  cases rate with
  | none => simp [Charged.chargeSome]
  | some r => simp [Charged.chargeSome, Charged.charge_inputUnits, hm]

theorem Charged.charge_inputNonneg (meter : Meter) (rate : ℚ)
    (hacc : InputNonneg acc.lines) (hu : 0 ≤ units) :
    InputNonneg (acc.charge meter units rate).lines := by
  intro line hl hm
  unfold Charged.charge at hl
  dsimp only at hl
  split at hl
  · exact hacc line hl hm
  · rcases List.mem_append.mp hl with hl | hl
    · exact hacc line hl hm
    · cases List.mem_singleton.mp hl
      exact hu

theorem Charged.chargeSome_inputNonneg {meter : Meter}
    {rate : Option ℚ} (hacc : InputNonneg acc.lines) (hu : 0 ≤ units) :
    InputNonneg (acc.chargeSome meter units rate).lines := by
  cases rate with
  | none => exact hacc
  | some r => exact charge_inputNonneg _ _ hacc hu

theorem oneHourWriteTokens_bounds (rates : Rates) (h : usage.WellFormed) :
    0 ≤ oneHourWriteTokens rates usage ∧
      oneHourWriteTokens rates usage ≤ usage.cacheWriteTokens := by
  unfold oneHourWriteTokens
  split
  · exact ⟨h.oneHour_nonneg, h.oneHour_le⟩
  · exact ⟨le_rfl, h.write_nonneg⟩

theorem freshInputTokens_nonneg (rates : Rates) (h : usage.WellFormed) :
    0 ≤ freshInputTokens rates usage := by
  have hr := h.read_nonneg
  have hw := h.write_nonneg
  have hc := h.cached_le
  unfold freshInputTokens
  split <;> split <;> linarith

theorem chargeMeters_inputNonneg (rates : Rates) (h : usage.WellFormed) :
    InputNonneg (chargeMeters rates usage).lines := by
  obtain ⟨hh, hle⟩ := oneHourWriteTokens_bounds rates h
  have h₀ : InputNonneg ({} : Charged).lines := fun _ hl => absurd hl List.not_mem_nil
  have h₁ := Charged.charge_inputNonneg .input rates.inputPricePerMillion h₀
    (freshInputTokens_nonneg rates h)
  have h₂ := Charged.charge_inputNonneg .output rates.outputPricePerMillion h₁
    h.completion_nonneg
  exact Charged.chargeSome_inputNonneg
    (Charged.chargeSome_inputNonneg (Charged.chargeSome_inputNonneg h₂ h.read_nonneg)
      (sub_nonneg.mpr hle)) hh

/-- **The lines partition the input.**  Each cached bucket is either charged or left in the fresh
one, and the 1-hour writes are cut out of the writes. -/
theorem chargeMeters_inputUnits (hr : rates.HourPriced) (usage : BillableUsage) :
    inputUnits (chargeMeters rates usage).lines = usage.totalInputTokens := by
  unfold chargeMeters
  dsimp only
  rw [Charged.chargeSome_inputUnits (by decide), Charged.chargeSome_inputUnits (by decide),
    Charged.chargeSome_inputUnits (by decide), Charged.charge_inputUnits, Charged.charge_inputUnits]
  unfold freshInputTokens oneHourWriteTokens
  cases hw : rates.cacheWritePricePerMillion with
  | none =>
    have hh : rates.cacheWrite1hPricePerMillion = none := by
      have h := hr
      rw [Rates.HourPriced, hw] at h
      simpa using h
    simp [hh, inputUnits]
  | some w =>
    cases rates.cacheWrite1hPricePerMillion with
    | none => simp [inputUnits]; ring
    | some hour => simp [inputUnits]; ring

theorem priceBillableUsage_ok {priced : Priced}
    (h : priceBillableUsage pricing usage = .ok priced) :
    ∃ rates, effectiveRates pricing usage.totalInputTokens = .ok rates ∧
      priced.cost = quantizeCost (chargeMeters rates usage).cost ∧
      priced.lines = (chargeMeters rates usage).lines := by
  unfold priceBillableUsage priceMeters at h
  cases hr : effectiveRates pricing usage.totalInputTokens with
  | error e => rw [hr] at h; cases h
  | ok rates => rw [hr] at h; cases h; exact ⟨rates, rfl, rfl, rfl⟩

/-! ### The two conventions -/

/-- A report whose prompt counts its cache reads and writes. -/
def inclusiveReport (prompt read write : ℕ) (oneHour output : ℤ) : UsageReport where
  inputTokens := prompt
  outputTokens := output
  cacheTokensIncluded := true
  cacheReadTokens := read
  cacheWriteTokens := write
  cacheWrite1hTokens := oneHour

/-- The same event from a provider that reports the cached buckets beside the prompt. -/
def exclusiveReport (prompt read write : ℕ) (oneHour output : ℤ) : UsageReport where
  inputTokens := prompt - read - write
  outputTokens := output
  cacheTokensIncluded := false
  cacheReadTokens := read
  cacheWriteTokens := write
  cacheWrite1hTokens := oneHour

theorem billableUsage_conventions {prompt read write : ℕ} (h : read + write ≤ prompt)
    (oneHour output : ℤ) : billableUsage (inclusiveReport prompt read write oneHour output) =
      billableUsage (exclusiveReport prompt read write oneHour output) := by
  have hle : (read : ℤ) + write ≤ prompt := by exact_mod_cast h
  have hfresh : max ((prompt : ℤ) - read - write) 0 = prompt - read - write :=
    max_eq_left (by linarith)
  simp only [billableUsage, inclusiveReport, exclusiveReport, Bool.not_true, Bool.not_false,
    Bool.false_eq_true, if_false, if_true, hfresh, max_eq_left (Int.natCast_nonneg _),
    not_lt.mpr hle]
  congr 1
  ring

/-- **Every input token is billed exactly once**, on every card and in either convention: the
input-side lines are nonnegative and sum to the report's total input, and a report that counts its
cached tokens inside the prompt settles like the one that counts them beside it. -/
theorem input_billed_once (pricing : Pricing) : (∀ (report : UsageReport) (priced : Priced),
      priceBillableUsage pricing (billableUsage report) = .ok priced →
        InputNonneg priced.lines ∧ inputUnits priced.lines = report.totalInput) ∧
    ∀ (prompt read write : ℕ) (oneHour output : ℤ), read + write ≤ prompt →
      priceBillableUsage pricing
          (billableUsage (inclusiveReport prompt read write oneHour output)) =
        priceBillableUsage pricing
          (billableUsage (exclusiveReport prompt read write oneHour output)) := by
  constructor
  · intro report priced h
    obtain ⟨rates, hr, -, hl⟩ := priceBillableUsage_ok h
    rw [hl]
    refine ⟨chargeMeters_inputNonneg rates (billableUsage_wellFormed report), ?_⟩
    rw [chargeMeters_inputUnits (effectiveRates_hourPriced hr), billableUsage_total]
  · intro prompt read write oneHour output h
    rw [billableUsage_conventions h]

/-- A card at 3 in and 15 out, with cache rates and a dearer tier from 200 tokens. -/
def sampleCard : Pricing where
  modelKey := some ['a', ':', 'c', 'l', 'a', 'u', 'd', 'e']
  unit := none
  rates
    | .inputPricePerMillion => .decimal 3
    | .outputPricePerMillion => .decimal 15
    | .cacheReadPricePerMillion => .decimal 1
    | .cacheWritePricePerMillion => .decimal 4
  pricingTiers := some [some
    { minInputTokens := some (.int 200)
      rates := fun field => if field = .inputPricePerMillion then .int 6 else .none }]

theorem input_billed_once_sample : (∃ priced, priceBillableUsage sampleCard
        (billableUsage (inclusiveReport 1000 200 300 100 50)) = .ok priced ∧
      InputNonneg priced.lines ∧ inputUnits priced.lines = 1000) ∧
    priceBillableUsage sampleCard (billableUsage (inclusiveReport 1000 200 300 100 50)) =
      priceBillableUsage sampleCard (billableUsage (exclusiveReport 1000 200 300 100 50)) := by
  refine ⟨⟨_, rfl, ?_⟩, (input_billed_once sampleCard).2 1000 200 300 100 50 (by decide)⟩
  exact (input_billed_once sampleCard).1 (inclusiveReport 1000 200 300 100 50) _ rfl

end Otari.Metered

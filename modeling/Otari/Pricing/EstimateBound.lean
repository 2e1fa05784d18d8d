import Otari.Pricing.InputSide

/-!
# Pricing — EstimateBound — when the estimate bounds the settled cost

`estimateMeteredCost` prices the estimated input at one tier, the one it reaches, while settlement
takes the tier of the actual total.  At fixed rates the estimate is an upper bound
(`chargeMeters_cost_le`), and it is attained (`exists_report_cost`).  So the bound fails only across
a threshold: `estimate_bounds_iff` says it holds exactly when the input just below each threshold
is no dearer than the whole estimated input, and `estimate_underbound` is a discounting tier where
it does not.
-/

namespace Otari.Metered

/-- A token-priced rate as the gateway stores it: base rates are columns that are never null nor
negative, and a threshold is a JSON value, so no infinity. -/
structure TokenRate extends Pricing where
  unit_token : (unit.map currentUnitName).getD .token = .token
  input_usable : (toDecimal (rates .inputPricePerMillion)).isSome
  output_usable : (toDecimal (rates .outputPricePerMillion)).isSome
  thresholds_finite : ∀ tiers tier, pricingTiers = some tiers → some tier ∈ tiers →
    ∃ threshold, tierThreshold tier = .ok threshold

/-- Some tier of the card starts at `t`. -/
def Pricing.HasThreshold (pricing : Pricing) (t : ℤ) : Prop :=
  ∃ tiers tier, pricing.pricingTiers = some tiers ∧ some tier ∈ tiers ∧
    tierThreshold tier = .ok (some t)

/-! ### Rates along the input axis -/

variable {n : ℤ}

theorem reachedTiers_congr {m : ℤ} (tiers : List (Option Tier))
    (h : ∀ tier, some tier ∈ tiers → ∀ t, tierThreshold tier = .ok (some t) → (t ≤ n ↔ t ≤ m)) :
    reachedTiers n tiers = reachedTiers m tiers := by
  induction tiers with
  | nil => rfl
  | cons tier tiers ih =>
    have ih := ih fun tier ht => h tier (List.mem_cons_of_mem _ ht)
    cases tier with
    | none => exact ih
    | some tier =>
      cases ht : tierThreshold tier with
      | error e => simp only [reachedTiers, ht]; rfl
      | ok threshold =>
        cases threshold with
        | none => simp only [reachedTiers, ht, ih, ok_bind]
        | some t => simp only [reachedTiers, ht, ih, ok_bind, h tier List.mem_cons_self t ht]

variable {pricing : Pricing}

theorem effectiveRates_congr {m : ℤ} (h : ∀ t, pricing.HasThreshold t → (t ≤ n ↔ t ≤ m)) :
    effectiveRates pricing n = effectiveRates pricing m := by
  unfold effectiveRates applicableTier
  cases hp : pricing.pricingTiers with
  | none => rfl
  | some tiers =>
    have ht := reachedTiers_congr (n := n) (m := m) tiers
      fun tier hmem t ht => h t ⟨tiers, tier, hp, hmem, ht⟩
    simp only [ht]

theorem reachedTiers_ok (n : ℤ) (tiers : List (Option Tier))
    (h : ∀ tier, some tier ∈ tiers → ∃ threshold, tierThreshold tier = .ok threshold) :
    ∃ reached, reachedTiers n tiers = .ok reached := by
  induction tiers with
  | nil => exact ⟨[], rfl⟩
  | cons tier tiers ih =>
    obtain ⟨reached, hr⟩ := ih fun tier ht => h tier (List.mem_cons_of_mem _ ht)
    cases tier with
    | none => exact ⟨reached, hr⟩
    | some tier =>
      obtain ⟨threshold, ht⟩ := h tier List.mem_cons_self
      cases threshold with
      | none => exact ⟨reached, by simp only [reachedTiers, ht, hr]; rfl⟩
      | some t =>
        exact ⟨if t ≤ n then (t, tier) :: reached else reached,
          by simp only [reachedTiers, ht, hr]; rfl⟩

theorem toDecimal_nonneg {value : RawValue} {q : ℚ} (h : toDecimal value = some q) : 0 ≤ q := by
  have h := (Option.filter_eq_some_iff.mp h).2
  simpa using h

theorem tieredValue_nonneg {tier : Option Tier} {field : RateField} {q : ℚ}
    (h : tieredValue pricing tier field = some q) : 0 ≤ q := by
  unfold tieredValue at h
  rcases Option.or_eq_some_iff.mp h with h | ⟨-, h⟩
  · obtain ⟨t, -, h⟩ := Option.bind_eq_some_iff.mp h
    exact toDecimal_nonneg h
  · exact toDecimal_nonneg h

theorem tieredValue_isSome {field : RateField}
    (h : (toDecimal (pricing.rates field)).isSome) (tier : Option Tier) :
    (tieredValue pricing tier field).isSome := by
  unfold tieredValue
  rw [Option.isSome_or, h, Bool.or_true]

theorem effectiveRates_isOk (hin : (toDecimal (pricing.rates .inputPricePerMillion)).isSome)
    (hout : (toDecimal (pricing.rates .outputPricePerMillion)).isSome)
    (hfinite : ∀ tiers tier, pricing.pricingTiers = some tiers → some tier ∈ tiers →
      ∃ threshold, tierThreshold tier = .ok threshold) (n : ℤ) :
    ∃ rates, effectiveRates pricing n = .ok rates := by
  have htier : ∃ tier, applicableTier pricing.pricingTiers n = .ok tier := by
    cases hp : pricing.pricingTiers with
    | none => exact ⟨none, rfl⟩
    | some tiers =>
      obtain ⟨reached, hr⟩ := reachedTiers_ok n tiers fun tier ht => hfinite tiers tier hp ht
      exact ⟨_, by simp only [applicableTier, hr]; rfl⟩
  obtain ⟨tier, ht⟩ := htier
  obtain ⟨i, hi⟩ := Option.isSome_iff_exists.mp (tieredValue_isSome hin tier)
  obtain ⟨o, ho⟩ := Option.isSome_iff_exists.mp (tieredValue_isSome hout tier)
  simp only [effectiveRates, ht, ok_bind, ratesAt, hi, ho]
  exact ⟨_, rfl⟩

theorem TokenRate.effectiveRates_isOk (rate : TokenRate) (n : ℤ) :
    ∃ rates, effectiveRates rate.toPricing n = .ok rates :=
  Metered.effectiveRates_isOk rate.input_usable rate.output_usable rate.thresholds_finite n

/-! ### What a prompt token can bill at -/

/-- The rates a prompt token can bill at: fresh, a cache read, or a write on a requested TTL. -/
def Rates.Chargeable (rates : Rates) (ttl : Option CacheWriteTtl) (r : ℚ) : Prop :=
  r = rates.inputPricePerMillion ∨
    rates.cacheReadPricePerMillion = some r ∨
    (ttl.isSome ∧ rates.cacheWritePricePerMillion = some r) ∨
    (ttl = some .oneHour ∧ rates.cacheWrite1hPricePerMillion = some r)

variable {rates : Rates} {ttl : Option CacheWriteTtl} {r : ℚ}

theorem chargeable_iff :
    rates.Chargeable ttl r ↔ r = rates.inputPricePerMillion ∨ r ∈ cacheRates rates ttl := by
  unfold Rates.Chargeable cacheRates
  by_cases h₁ : ttl.isSome
  · by_cases h₂ : ttl = some .oneHour
    · simp [h₂]
    · simp [h₁, h₂]
  · have h₂ : ttl ≠ some .oneHour := fun h => h₁ (h ▸ rfl)
    simp [h₁, h₂]

theorem le_dearest (rate : ℚ) (others : List ℚ) :
    rate ≤ dearest rate others ∧ ∀ r ∈ others, r ≤ dearest rate others := by
  unfold dearest
  induction others generalizing rate with
  | nil => exact ⟨le_rfl, fun r hr => absurd hr List.not_mem_nil⟩
  | cons q others ih =>
    obtain ⟨h₁, h₂⟩ := ih (max rate q)
    refine ⟨(le_max_left _ _).trans h₁, fun r hr => ?_⟩
    rcases List.mem_cons.mp hr with rfl | hr
    · exact (le_max_right _ _).trans h₁
    · exact h₂ r hr

theorem dearest_mem (rate : ℚ) (others : List ℚ) :
    dearest rate others = rate ∨ dearest rate others ∈ others := by
  unfold dearest
  induction others generalizing rate with
  | nil => exact .inl rfl
  | cons q others ih =>
    rw [List.foldl_cons]
    rcases ih (max rate q) with h | h
    · rw [h]
      rcases max_choice rate q with h' | h'
      · exact .inl h'
      · rw [h']; exact .inr List.mem_cons_self
    · exact .inr (List.mem_cons_of_mem _ h)

def Rates.perInputToken (rates : Rates) (ttl : Option CacheWriteTtl) : ℚ :=
  dearest rates.inputPricePerMillion (cacheRates rates ttl)

theorem Rates.perInputToken_chargeable (rates : Rates) (ttl : Option CacheWriteTtl) :
    rates.Chargeable ttl (rates.perInputToken ttl) :=
  chargeable_iff.mpr (dearest_mem _ _)

theorem Rates.Chargeable.le_perInputToken
    (h : rates.Chargeable ttl r) : r ≤ rates.perInputToken ttl := by
  rcases chargeable_iff.mp h with rfl | h
  · exact (le_dearest _ _).1
  · exact (le_dearest _ _).2 r h

/-- The exact price of `n` prompt tokens at `r` and `o` output tokens. -/
def Rates.amount (rates : Rates) (r : ℚ) (n o : ℤ) : ℚ :=
  meterCost n r + meterCost o rates.outputPricePerMillion

theorem meterCost_mono_rate (hn : 0 ≤ n) {r' : ℚ} (h : r ≤ r') :
    meterCost n r ≤ meterCost n r' := by
  have hn : (0 : ℚ) ≤ n := by exact_mod_cast hn
  unfold meterCost tokensPerPricingUnit
  gcongr

theorem meterCost_mono_tokens {m : ℤ} (h : n ≤ m) (hr : 0 ≤ r) : meterCost n r ≤ meterCost m r := by
  have h : (n : ℚ) ≤ m := by exact_mod_cast h
  unfold meterCost tokensPerPricingUnit
  gcongr

theorem meterCost_add (n m r : ℚ) : meterCost (n + m) r = meterCost n r + meterCost m r := by
  unfold meterCost
  ring

@[simp] theorem meterCost_zero (r : ℚ) : meterCost 0 r = 0 := by
  simp [meterCost]

theorem effectiveRates_nonneg (h : effectiveRates pricing n = .ok rates) :
    0 ≤ rates.inputPricePerMillion ∧ 0 ≤ rates.outputPricePerMillion := by
  obtain ⟨tier, i, o, -, hi, ho, rfl⟩ := effectiveRates_ok h
  exact ⟨tieredValue_nonneg hi, tieredValue_nonneg ho⟩

theorem Rates.perInputToken_nonneg (h : 0 ≤ rates.inputPricePerMillion)
    (ttl : Option CacheWriteTtl) : 0 ≤ rates.perInputToken ttl :=
  h.trans (le_dearest _ _).1

/-! ### Settlement at fixed rates -/

/-- What a meter comes to when its rate is not null. -/
def meterSome (units : ℤ) (rate : Option ℚ) : ℚ :=
  (rate.map (meterCost units)).getD 0

theorem Charged.chargeSome_cost (acc : Charged) (meter : Meter) (units : ℤ) (rate : Option ℚ) :
    (acc.chargeSome meter units rate).cost = acc.cost + meterSome units rate := by
  cases rate with
  | none => simp [Charged.chargeSome, meterSome]
  | some r => rfl

theorem chargeMeters_cost (rates : Rates) (usage : BillableUsage) :
    (chargeMeters rates usage).cost =
      meterCost (freshInputTokens rates usage) rates.inputPricePerMillion
        + meterCost usage.completionTokens rates.outputPricePerMillion
        + meterSome usage.cacheReadTokens rates.cacheReadPricePerMillion
        + meterSome (usage.cacheWriteTokens - oneHourWriteTokens rates usage)
            rates.cacheWritePricePerMillion
        + meterSome (oneHourWriteTokens rates usage) rates.cacheWrite1hPricePerMillion := by
  unfold chargeMeters
  dsimp only
  rw [Charged.chargeSome_cost, Charged.chargeSome_cost, Charged.chargeSome_cost]
  simp [Charged.charge]

def pricedUnits (units : ℤ) (rate : Option ℚ) : ℤ :=
  if rate.isSome then units else 0

/-- A bucket whose rate, if it has one, is at most `r` comes to at most its priced tokens at `r`. -/
theorem meterSome_le {units : ℤ} (hu : 0 ≤ units) (rate : Option ℚ)
    (h : units = 0 ∨ ∀ q, rate = some q → q ≤ r) :
    meterSome units rate ≤ meterCost (pricedUnits units rate) r := by
  cases rate with
  | none => simp [meterSome, pricedUnits]
  | some q =>
    rcases h with rfl | h
    · simp [meterSome, pricedUnits]
    · exact meterCost_mono_rate hu (h q rfl)

/-- The cached buckets a report may carry under a requested TTL. -/
structure BillableUsage.Within (usage : BillableUsage) (ttl : Option CacheWriteTtl) : Prop where
  write : ttl = none → usage.cacheWriteTokens = 0
  oneHour : ttl ≠ some .oneHour → usage.cacheWrite1hTokens = 0

theorem total_eq_buckets (hr : rates.HourPriced) (usage : BillableUsage) : usage.totalInputTokens =
      freshInputTokens rates usage
        + pricedUnits usage.cacheReadTokens rates.cacheReadPricePerMillion
        + pricedUnits (usage.cacheWriteTokens - oneHourWriteTokens rates usage)
            rates.cacheWritePricePerMillion
        + pricedUnits (oneHourWriteTokens rates usage) rates.cacheWrite1hPricePerMillion := by
  unfold freshInputTokens oneHourWriteTokens pricedUnits
  cases hw : rates.cacheWritePricePerMillion with
  | none =>
    have hh : rates.cacheWrite1hPricePerMillion = none := by
      have h := hr
      rw [Rates.HourPriced, hw] at h
      simpa using h
    simp [hh]
  | some w =>
    cases rates.cacheWrite1hPricePerMillion with
    | none => simp; ring
    | some hour => simp; ring

/-- **At fixed rates the dearest one bounds the settlement.** -/
theorem chargeMeters_cost_le (hr : rates.HourPriced) {usage : BillableUsage}
    (hu : usage.WellFormed) (ht : usage.Within ttl) : (chargeMeters rates usage).cost ≤
      rates.amount (rates.perInputToken ttl) usage.totalInputTokens usage.completionTokens := by
  obtain ⟨hh₀, hh₁⟩ := oneHourWriteTokens_bounds rates hu
  have hle : ∀ q, rates.Chargeable ttl q → q ≤ rates.perInputToken ttl :=
    fun q hq => hq.le_perInputToken
  have hfresh := meterCost_mono_rate (freshInputTokens_nonneg rates hu) (hle _ (.inl rfl))
  have hread := meterSome_le hu.read_nonneg rates.cacheReadPricePerMillion
    (.inr fun q hq => hle q (.inr (.inl hq)))
  have hwrite := meterSome_le (r := rates.perInputToken ttl) (sub_nonneg.mpr hh₁)
    rates.cacheWritePricePerMillion (by
      cases ttl with
      | none =>
        have h₀ := ht.write rfl
        exact .inl (by rw [h₀] at hh₁ ⊢; linarith)
      | some t => exact .inr fun q hq => hle q (.inr (.inr (.inl ⟨rfl, hq⟩))))
  have hhour := meterSome_le (r := rates.perInputToken ttl) hh₀ rates.cacheWrite1hPricePerMillion
    (by
      by_cases h₁ : ttl = some .oneHour
      · exact .inr fun q hq => hle q (.inr (.inr (.inr ⟨h₁, hq⟩)))
      · exact .inl (by rw [oneHourWriteTokens, ht.oneHour h₁, ite_self]))
  have htotal := congrArg (fun n : ℤ => meterCost n (rates.perInputToken ttl))
    (total_eq_buckets hr usage)
  push_cast [meterCost_add] at htotal
  rw [chargeMeters_cost, Rates.amount, htotal]
  linarith

/-! ### The worst report -/

/-- The reports an estimate of `input` and `output` tokens on a TTL is for. -/
structure UsageReport.Admitted (report : UsageReport) (input output : ℤ)
    (ttl : Option CacheWriteTtl) : Prop where
  input_le : report.totalInput ≤ input
  output_le : report.outputTokens ≤ output
  write : 0 < report.cacheWriteTokens → ttl.isSome
  oneHour : 0 < report.cacheWrite1hTokens → ttl = some .oneHour

theorem UsageReport.totalInput_nonneg (report : UsageReport) : 0 ≤ report.totalInput := by
  rw [← billableUsage_total]
  exact (billableUsage_wellFormed report).total_nonneg

theorem billableUsage_completion (report : UsageReport) :
    (billableUsage report).completionTokens = max report.outputTokens 0 := by
  unfold billableUsage
  dsimp only
  split
  · rfl
  · split <;> rfl

theorem billableUsage_write_le (report : UsageReport) :
    (billableUsage report).cacheWriteTokens ≤ max report.cacheWriteTokens 0 ∧
      (billableUsage report).cacheWrite1hTokens ≤ max report.cacheWrite1hTokens 0 := by
  have hw := le_max_right report.cacheWriteTokens 0
  have hh := le_max_right report.cacheWrite1hTokens 0
  unfold billableUsage
  dsimp only
  split
  · exact ⟨le_rfl, min_le_left _ _⟩
  · split
    · exact ⟨hw, hh⟩
    · exact ⟨le_rfl, min_le_left _ _⟩

theorem UsageReport.Admitted.within {report : UsageReport} {input output : ℤ}
    (h : report.Admitted input output ttl) : (billableUsage report).Within ttl := by
  obtain ⟨hw, hh⟩ := billableUsage_write_le report
  have hu := billableUsage_wellFormed report
  constructor
  · intro ht
    have hle : report.cacheWriteTokens ≤ 0 := by
      by_contra hpos
      have := h.write (not_le.mp hpos)
      simp [ht] at this
    rw [max_eq_right hle] at hw
    exact le_antisymm hw hu.write_nonneg
  · intro ht
    have hle : report.cacheWrite1hTokens ≤ 0 := by
      by_contra hpos
      exact ht (h.oneHour (not_le.mp hpos))
    rw [max_eq_right hle] at hh
    exact le_antisymm hh hu.oneHour_nonneg

/-- **The bound is attained.**  A report of `n` tokens can put them all in the bucket that bills at
a given chargeable rate. -/
theorem exists_report_cost (hr : rates.HourPriced)
    (h : rates.Chargeable ttl r) (hn : 0 ≤ n) (output : ℤ) :
    ∃ report : UsageReport, report.Admitted n output ttl ∧ report.totalInput = n ∧
      (chargeMeters rates (billableUsage report)).cost = rates.amount r n (max output 0) := by
  have hmax : max n 0 = n := max_eq_left hn
  rcases h with rfl | hread | ⟨hs, hwrite⟩ | ⟨hs, hhour⟩
  · refine ⟨⟨n, output, false, 0, 0, 0⟩, ⟨?_, le_rfl, ?_, ?_⟩, ?_, ?_⟩
    · simp [UsageReport.totalInput, hmax]
    · exact fun h => absurd h (lt_irrefl _)
    · exact fun h => absurd h (lt_irrefl _)
    · simp [UsageReport.totalInput, hmax]
    · rw [chargeMeters_cost]
      cases rates.cacheReadPricePerMillion <;> cases rates.cacheWritePricePerMillion <;>
        cases rates.cacheWrite1hPricePerMillion <;>
        simp [billableUsage, freshInputTokens, oneHourWriteTokens, meterSome, hmax, Rates.amount]
  · refine ⟨⟨0, output, false, n, 0, 0⟩, ⟨?_, le_rfl, ?_, ?_⟩, ?_, ?_⟩
    · simp [UsageReport.totalInput, hmax]
    · exact fun h => absurd h (lt_irrefl _)
    · exact fun h => absurd h (lt_irrefl _)
    · simp [UsageReport.totalInput, hmax]
    · rw [chargeMeters_cost, hread]
      cases rates.cacheWritePricePerMillion <;> cases rates.cacheWrite1hPricePerMillion <;>
        simp [billableUsage, freshInputTokens, oneHourWriteTokens, meterSome, hread, hmax,
          Rates.amount, add_comm]
  · refine ⟨⟨0, output, false, 0, n, 0⟩, ⟨?_, le_rfl, fun _ => hs, ?_⟩, ?_, ?_⟩
    · simp [UsageReport.totalInput, hmax]
    · exact fun h => absurd h (lt_irrefl _)
    · simp [UsageReport.totalInput, hmax]
    · rw [chargeMeters_cost, hwrite]
      cases rates.cacheReadPricePerMillion <;> cases rates.cacheWrite1hPricePerMillion <;>
        simp [billableUsage, freshInputTokens, oneHourWriteTokens, meterSome, hwrite, hn,
          Rates.amount, add_comm]
  · obtain ⟨w, hwrite⟩ := Option.isSome_iff_exists.mp (hr (by rw [hhour]; rfl))
    refine ⟨⟨0, output, false, 0, n, n⟩, ⟨?_, le_rfl, fun _ => hs ▸ rfl, fun _ => hs⟩, ?_, ?_⟩
    · simp [UsageReport.totalInput, hmax]
    · simp [UsageReport.totalInput, hmax]
    · rw [chargeMeters_cost, hwrite, hhour]
      cases rates.cacheReadPricePerMillion <;>
        simp [billableUsage, freshInputTokens, oneHourWriteTokens, meterSome, hwrite, hhour, hmax,
          Rates.amount, add_comm]

/-! ### Across the thresholds -/

theorem TokenRate.estimate (rate : TokenRate) (input output : ℤ) (ttl : Option CacheWriteTtl) :
    estimateMeteredCost rate.toPricing input output ttl =
      (effectiveRates rate.toPricing (max input 0) >>= fun rates => .ok (quantizeCost
        (rates.amount (rates.perInputToken ttl) (max input 0) (max output 0)))) := by
  have hreq : pricedPerRequest rate.toPricing = false := by
    have h := rate.unit_token
    unfold pricedPerRequest
    cases hu : rate.unit.map currentUnitName with
    | none => rfl
    | some u => rw [hu] at h; cases h; rfl
  unfold estimateMeteredCost
  rw [hreq, rate.unit_token]
  rfl

/-- What the estimate promises: it is made, and every admitted report settles, at no more. -/
def EstimateBounds (rate : TokenRate) (input output : ℤ) (ttl : Option CacheWriteTtl) : Prop :=
  ∃ held, estimateMeteredCost rate.toPricing input output ttl = .ok held ∧
    ∀ report : UsageReport, report.Admitted input output ttl →
      ∃ priced, priceBillableUsage rate.toPricing (billableUsage report) = .ok priced ∧
        priced.cost ≤ held

/-- No threshold up to the estimated input makes more tokens cheaper: whatever the tokens just below
it can bill at, the estimated input can come to as much. -/
def NoCheaperTier (rate : TokenRate) (input output : ℤ) (ttl : Option CacheWriteTtl) : Prop :=
  ∀ t, rate.HasThreshold t → 0 < t → t ≤ input → ∀ below reached,
    effectiveRates rate.toPricing (t - 1) = .ok below →
    effectiveRates rate.toPricing input = .ok reached →
    ∀ r, below.Chargeable ttl r → ∃ r', reached.Chargeable ttl r' ∧
      quantizeCost (below.amount r (t - 1) (max output 0)) ≤
        quantizeCost (reached.amount r' input (max output 0))

theorem amount_mono {r' : ℚ} {m o o' : ℤ} (hn : 0 ≤ m) (hr : 0 ≤ r)
    (ho : 0 ≤ rates.outputPricePerMillion) (hnm : n ≤ m) (hrr : r ≤ r') (hoo : o ≤ o') :
    rates.amount r n o ≤ rates.amount r' m o' :=
  add_le_add ((meterCost_mono_tokens hnm hr).trans (meterCost_mono_rate hn hrr))
    (meterCost_mono_tokens hoo ho)

/-- Between thresholds the worst price only grows, so at any total it is at most the one at the
estimated input, by way of the next threshold when there is one in between. -/
theorem NoCheaperTier.worst_le {rate : TokenRate} {input output : ℤ}
    (h : NoCheaperTier rate input output ttl) (hn : 0 ≤ n) (hle : n ≤ input)
    {reached : Rates} (hr : effectiveRates rate.toPricing n = .ok rates)
    (hi : effectiveRates rate.toPricing input = .ok reached) :
    quantizeCost (rates.amount (rates.perInputToken ttl) n (max output 0)) ≤
      quantizeCost (reached.amount (reached.perInputToken ttl) input (max output 0)) := by
  by_cases hnext : ∃ t, rate.HasThreshold t ∧ n < t ∧ t ≤ input
  · obtain ⟨t, ⟨ht, hnt, hti⟩, hleast⟩ := Int.exists_least_of_bdd
      (P := fun t => rate.HasThreshold t ∧ n < t ∧ t ≤ input) ⟨n, fun z hz => hz.2.1.le⟩ hnext
    have hsame : effectiveRates rate.toPricing (t - 1) = .ok rates := by
      rw [← hr]
      refine effectiveRates_congr fun s hs => ⟨fun hst => ?_, fun hsn => by linarith⟩
      by_contra hns
      have := hleast s ⟨hs, not_le.mp hns, by linarith⟩
      linarith
    obtain ⟨hin, hout⟩ := effectiveRates_nonneg hr
    obtain ⟨hin', -⟩ := effectiveRates_nonneg hi
    obtain ⟨r', hr', hcost⟩ := h t ht (by linarith) hti rates reached hsame hi _
      (rates.perInputToken_chargeable ttl)
    calc quantizeCost (rates.amount (rates.perInputToken ttl) n (max output 0))
        ≤ quantizeCost (rates.amount (rates.perInputToken ttl) (t - 1) (max output 0)) :=
          Rounding.quantize_mono _ (amount_mono (by linarith) (Rates.perInputToken_nonneg hin ttl)
            hout (by linarith) le_rfl le_rfl)
      _ ≤ quantizeCost (reached.amount r' input (max output 0)) := hcost
      _ ≤ quantizeCost (reached.amount (reached.perInputToken ttl) input (max output 0)) :=
          Rounding.quantize_mono _ (add_le_add
            (meterCost_mono_rate (by linarith) hr'.le_perInputToken) le_rfl)
  · have hsame : effectiveRates rate.toPricing n = effectiveRates rate.toPricing input :=
      effectiveRates_congr fun s hs => ⟨fun hsn => hsn.trans hle, fun hsi => by
        by_contra hns
        exact hnext ⟨s, hs, not_le.mp hns, hsi⟩⟩
    rw [hsame, hi] at hr
    cases hr
    obtain ⟨hin, hout⟩ := effectiveRates_nonneg hi
    exact Rounding.quantize_mono _ (amount_mono (hn.trans hle) (Rates.perInputToken_nonneg hin ttl)
      hout hle le_rfl le_rfl)

theorem priceBillableUsage_eq {report : UsageReport}
    (h : effectiveRates pricing report.totalInput = .ok rates) :
    ∃ priced, priceBillableUsage pricing (billableUsage report) = .ok priced ∧
      priced.cost = quantizeCost (chargeMeters rates (billableUsage report)).cost := by
  rw [← billableUsage_total] at h
  unfold priceBillableUsage priceMeters
  rw [h]
  exact ⟨_, rfl, rfl⟩

/-- **The estimate bounds the settlement exactly when no tier below the estimated input is
dearer.** -/
theorem estimate_bounds_iff (rate : TokenRate) (input output : ℤ) (ttl : Option CacheWriteTtl) :
    EstimateBounds rate input output ttl ↔ NoCheaperTier rate input output ttl := by
  constructor
  · rintro ⟨held, hest, h⟩ t ht hpos hti below reached hb hi r hr
    refine ⟨reached.perInputToken ttl, reached.perInputToken_chargeable ttl, ?_⟩
    obtain ⟨report, hadm, htot, hcost⟩ := exists_report_cost (effectiveRates_hourPriced hb) hr
      (n := t - 1) (by linarith) output
    have hmax : max input 0 = input := max_eq_left (by linarith)
    rw [rate.estimate, hmax, hi, ok_bind] at hest
    cases hest
    obtain ⟨priced, hp, hle⟩ :=
      h report ⟨hadm.input_le.trans (by linarith), hadm.output_le, hadm.write, hadm.oneHour⟩
    obtain ⟨priced', hp', hpc⟩ := priceBillableUsage_eq (htot ▸ hb)
    rw [hp] at hp'
    cases hp'
    rwa [hpc, hcost] at hle
  · intro h
    obtain ⟨reached, hi⟩ := rate.effectiveRates_isOk (max input 0)
    refine ⟨_, by rw [rate.estimate, hi, ok_bind], fun report hadm => ?_⟩
    have hn := report.totalInput_nonneg
    have hmax : max input 0 = input := max_eq_left (hn.trans hadm.input_le)
    rw [hmax] at hi ⊢
    obtain ⟨rates, hr⟩ := rate.effectiveRates_isOk report.totalInput
    obtain ⟨priced, hp, hcost⟩ := priceBillableUsage_eq hr
    refine ⟨priced, hp, ?_⟩
    obtain ⟨-, hout⟩ := effectiveRates_nonneg hr
    have hfixed := chargeMeters_cost_le (effectiveRates_hourPriced hr)
      (billableUsage_wellFormed report) hadm.within
    rw [billableUsage_total, billableUsage_completion] at hfixed
    rw [hcost]
    calc quantizeCost (chargeMeters rates (billableUsage report)).cost
        ≤ quantizeCost (rates.amount (rates.perInputToken ttl) report.totalInput
            (max report.outputTokens 0)) := Rounding.quantize_mono _ hfixed
      _ ≤ quantizeCost (rates.amount (rates.perInputToken ttl) report.totalInput
            (max output 0)) :=
          Rounding.quantize_mono _ (add_le_add le_rfl
            (meterCost_mono_tokens (max_le_max hadm.output_le le_rfl) hout))
      _ ≤ quantizeCost (reached.amount (reached.perInputToken ttl) input (max output 0)) :=
          h.worst_le hn hadm.input_le hr hi

/-- A card at 10 per million in, and 1 per million from 100000 tokens on. -/
def discountCard : TokenRate where
  modelKey := none
  unit := some (.current .token)
  rates
    | .inputPricePerMillion => .decimal 10
    | .outputPricePerMillion => .decimal 0
    | _ => .none
  pricingTiers := some [some
    { minInputTokens := some (.int 100000)
      rates := fun field => if field = .inputPricePerMillion then .int 1 else .none }]
  unit_token := rfl
  input_usable := rfl
  output_usable := rfl
  thresholds_finite := by
    intro tiers tier ht hmem
    cases ht
    cases List.mem_singleton.mp hmem
    exact ⟨_, rfl⟩

/-- 100000 tokens are held at the discount, and 99999 settle at the base rate. -/
theorem estimate_underbound : ¬ EstimateBounds discountCard 100000 0 none := by
  rintro ⟨held, hest, h⟩
  obtain ⟨priced, hp, hle⟩ := h ⟨99999, 0, true, 0, 0, 0⟩
    ⟨by decide, by decide, by decide, by decide⟩
  cases hest
  cases hp
  revert hle
  decide +kernel

end Otari.Metered

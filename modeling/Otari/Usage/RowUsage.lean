import Otari.Pricing.EstimateBound
import Otari.Pricing.ImportedUsage

/-!
# Usage — RowUsage — the usage of a stored row

`services/usage_admin_service.py`: the token counts of a stored row are normalized again, under the
convention its column states or, where that is null, the one its meters show (`rowUsage`), and the
row is priced at rates an operator gives, under its own provider and model (`reprice`).

A row comes back as the usage it was priced from (`rowUsage_stored`).  The rate that priced it may
have had another spelling of its model's key: **repricing at the rates that priced it leaves the
amount if and only if the two keys agree on its 1-hour cache writes, or those come to the same**
(`leavesCost_iff`).
-/

namespace Otari.Usage
open Pricing (Key Instant ExternalUsageEvent UsageLog Importer buildRow buildUsage)
open Metered

/-! ### Stored rows -/

/-- Which price an amount came from. -/
structure Provenance where
  source : Option Key := none
  reference : Option Key := none
  effectiveAt : Option Instant := none
  version : Option Key := none
  calculatedAt : Option Instant := none
deriving DecidableEq

/-- A row of `usage_logs`: what repricing reads and writes, and the other columns. -/
structure StoredRow (Id Other : Type) where
  id : Id
  provider : Option Key
  model : Key
  promptTokens : Option ℤ
  completionTokens : Option ℤ
  cacheReadTokens : Option ℤ
  cacheWriteTokens : Option ℤ
  cacheWrite1hTokens : Option ℤ
  /-- Null where it was not recorded. -/
  cacheTokensInPrompt : Option Bool
  billingMeters : Option Meters
  pricingBreakdown : Option (List ChargeLine)
  cost : Option ℚ
  provenance : Provenance := {}
  other : Other

variable {Id Other : Type}

/-- A row as an import stored it, its convention recorded or not. -/
def stored (row : UsageLog) (recorded : Bool) (id : Id) (other : Other) : StoredRow Id Other where
  id := id
  provider := some row.provider
  model := row.model
  promptTokens := some row.promptTokens
  completionTokens := some row.completionTokens
  cacheReadTokens := some row.cacheReadTokens
  cacheWriteTokens := some row.cacheWriteTokens
  cacheWrite1hTokens := some row.cacheWrite1hTokens
  cacheTokensInPrompt := if recorded then some row.cacheTokensInPrompt else none
  billingMeters := row.billingMeters
  pricingBreakdown := row.pricingBreakdown
  cost := row.cost
  other := other

/-- `_row_cache_tokens_included`. -/
def rowCacheTokensIncluded (row : StoredRow Id Other) : Bool :=
  match row.cacheTokensInPrompt, row.billingMeters with
  | some included, _ => included
  | none, some meters => meters.totalInputTokens = row.promptTokens.getD 0
  | none, none => false

/-- `_row_usage`. -/
def rowUsage (row : StoredRow Id Other) : BillableUsage :=
  billableUsage
    { inputTokens := row.promptTokens.getD 0
      outputTokens := row.completionTokens.getD 0
      cacheTokensIncluded := rowCacheTokensIncluded row
      cacheReadTokens := row.cacheReadTokens.getD 0
      cacheWriteTokens := row.cacheWriteTokens.getD 0
      cacheWrite1hTokens := row.cacheWrite1hTokens.getD 0 }

/-! ### Manual rates -/

/-- A rate of the request: a float that is not negative, or for a cache rate none. -/
def ManualRate (field : RateField) : RawValue → Prop
  | .float shown _ => 0 ≤ shown
  | .infinity => True
  | .none => field = .cacheReadPricePerMillion ∨ field = .cacheWritePricePerMillion
  | _ => False

/-- `UsageSetPriceRequest`, its rates. -/
structure SetPriceRequest where
  rates : RateField → RawValue
  manual : ∀ field, ManualRate field (rates field)

/-- The key a row's model has, whether or not it has a provider. -/
def manualKey (row : StoredRow Id Other) : Key := row.provider.getD [] ++ ':' :: row.model

/-- `_manual_pricing`. -/
def manualPricing (request : SetPriceRequest) (row : StoredRow Id Other) : Pricing where
  modelKey := some (manualKey row)
  unit := none
  rates := request.rates
  pricingTiers := some []

/-- The row repriced, and whether its amount changed. -/
def reprice (request : SetPriceRequest) (row : StoredRow Id Other) :
    Except PricingError (StoredRow Id Other × Bool) := do
  let priced ← priceBillableUsage (manualPricing request row) (rowUsage row)
  if row.cost = some priced.cost then return (row, false)
  return ({ row with
    cost := some priced.cost
    billingMeters := some priced.meters
    pricingBreakdown := some priced.lines
    provenance := {} }, true)

/-! ### The usage comes back -/

variable {importer : Importer} {event : ExternalUsageEvent} {pricing : Pricing.ModelPricing}
    {row : UsageLog}

theorem priced_of_buildRow (h : buildRow importer event (some pricing) = .ok row) :
    ∃ priced, priceBillableUsage pricing.rate.toPricing (buildUsage event) = .ok priced ∧
      row.billingMeters = some priced.meters ∧ row.cost = some priced.cost := by
  unfold buildRow at h
  obtain ⟨some?, hpriced, hrow⟩ := bind_eq_ok.mp h
  cases hprice : priceBillableUsage pricing.rate.toPricing (buildUsage event) with
  | error e =>
    rw [hprice] at hpriced
    cases hpriced
  | ok priced =>
    rw [hprice] at hpriced
    obtain rfl := Except.ok.inj hpriced
    rw [← Except.ok.inj hrow]
    exact ⟨priced, rfl, rfl, rfl⟩

variable {usage : BillableUsage}

theorem total_of_priced {pricing : Pricing} {priced : Priced}
    (h : priceBillableUsage pricing usage = .ok priced) :
    priced.meters.totalInputTokens = usage.totalInputTokens := by
  obtain ⟨exact, hexact, h⟩ := bind_eq_ok.mp h
  obtain ⟨rates, -, hmeters⟩ := bind_eq_ok.mp hexact
  rw [← Except.ok.inj h, ← Except.ok.inj hmeters]

theorem billableUsage_shown (report : UsageReport) (hinput : 0 ≤ report.inputTokens) :
    billableUsage { report with
      cacheTokensIncluded := (billableUsage report).totalInputTokens = report.inputTokens } =
    billableUsage report := by
  obtain ⟨input, output, included, read, write, write1h⟩ := report
  have hprompt : max input 0 = input := max_eq_left hinput
  cases included with
  | true =>
    -- the total of an inclusive report is its prompt, contradictory or not
    have htotal : (billableUsage ⟨input, output, true, read, write, write1h⟩).totalInputTokens =
        input := by
      simp only [billableUsage, hprompt, Bool.not_true, Bool.false_eq_true, if_false]
      split <;> rfl
    rw [htotal, decide_eq_true rfl]
  | false =>
    have htotal : (billableUsage ⟨input, output, false, read, write, write1h⟩).totalInputTokens =
        input + max read 0 + max write 0 := by
      simp only [billableUsage, hprompt, Bool.not_false, if_true]
    rw [htotal]
    by_cases hcached : input + max read 0 + max write 0 = input
    · -- no cache tokens: the two conventions agree
      have hread : max read 0 = 0 := by omega
      have hwrite : max write 0 = 0 := by omega
      rw [decide_eq_true hcached]
      simp [billableUsage, hread, hwrite, hprompt, hinput.not_gt]
    · rw [decide_eq_false hcached]

/-- **The usage of a stored row is the usage it was priced from**, its convention recorded or not. -/
theorem rowUsage_stored
    (h : buildRow importer event (some pricing) = .ok row) (recorded : Bool) (id : Id)
    (other : Other) : rowUsage (stored row recorded id other) = buildUsage event := by
  obtain ⟨priced, hpriced, hmeters, -⟩ := priced_of_buildRow h
  have hcounts : row.promptTokens = event.inputTokens ∧ row.completionTokens = event.outputTokens ∧
      row.cacheReadTokens = event.cacheReadTokens ∧ row.cacheWriteTokens = event.cacheWriteTokens ∧
      row.cacheWrite1hTokens = event.cacheWrite1hTokens ∧
      row.cacheTokensInPrompt = event.cacheTokensInPrompt := by
    unfold buildRow at h
    obtain ⟨some?, -, hrow⟩ := bind_eq_ok.mp h
    rw [← Except.ok.inj hrow]
    exact ⟨rfl, rfl, rfl, rfl, rfl, rfl⟩
  obtain ⟨hprompt, hcompletion, hread, hwrite, hwrite1h, hconvention⟩ := hcounts
  cases recorded with
  | true =>
    simp only [rowUsage, stored, rowCacheTokensIncluded, if_true, Option.getD_some, hprompt,
      hcompletion, hread, hwrite, hwrite1h, hconvention]
    rfl
  | false =>
    have hshown := billableUsage_shown event.report (Int.natCast_nonneg _)
    rw [buildUsage, ← hshown]
    have htotal : priced.meters.totalInputTokens =
        (billableUsage event.report).totalInputTokens := total_of_priced hpriced
    simp only [rowUsage, stored, rowCacheTokensIncluded, Bool.false_eq_true, if_false, hmeters,
      Option.getD_some, hprompt, hcompletion, hread, hwrite, hwrite1h, htotal]
    rfl

/-! ### The amount comes back -/

/-- The request gives the rates. -/
structure SetPriceRequest.AsksFor (request : SetPriceRequest) (rates : Rates) : Prop where
  input : toDecimal (request.rates .inputPricePerMillion) = some rates.inputPricePerMillion
  output : toDecimal (request.rates .outputPricePerMillion) = some rates.outputPricePerMillion
  cacheRead : toDecimal (request.rates .cacheReadPricePerMillion) = rates.cacheReadPricePerMillion
  cacheWrite : toDecimal (request.rates .cacheWritePricePerMillion) =
    rates.cacheWritePricePerMillion

/-- Repricing at the rates that priced an event's row leaves the row. -/
def LeavesCost (importer : Importer) (event : ExternalUsageEvent) (pricing : Pricing.ModelPricing) :
    Prop :=
  ∀ row, buildRow importer event (some pricing) = .ok row →
    ∀ rates, effectiveRates pricing.rate.toPricing (buildUsage event).totalInputTokens = .ok rates →
      ∀ request : SetPriceRequest, request.AsksFor rates →
        ∀ (recorded : Bool) (Id Other : Type) (id : Id) (other : Other),
          reprice request (stored row recorded id other) = .ok (stored row recorded id other, false)

def claudeKey (key : Key) : Bool :=
  isClaude { modelKey := some key, unit := none, rates := fun _ => .none, pricingTiers := none }

def hourly (rates : Rates) (claude : Bool) : Rates :=
  { rates with
    cacheWrite1hPricePerMillion :=
      if rates.cacheWritePricePerMillion.getD 0 ≠ 0 ∧ claude then
        some (rates.inputPricePerMillion * claude1hCacheWriteInputMultiple)
      else none }

def amount (rates : Rates) (usage : BillableUsage) : ℚ := quantizeCost (chargeMeters rates usage).cost

/-- What usage comes to beside its 1-hour cache writes, not rounded. -/
def besideHour (rates : Rates) (usage : BillableUsage) : ℚ :=
  meterCost (freshInputTokens rates usage) rates.inputPricePerMillion
    + meterCost usage.completionTokens rates.outputPricePerMillion
    + meterSome usage.cacheReadTokens rates.cacheReadPricePerMillion
    + meterSome (usage.cacheWriteTokens - usage.cacheWrite1hTokens) rates.cacheWritePricePerMillion

/-- Cache writes are free, or those of the hour round to the same at Claude's multiple of the input
rate as at the rate of the others. -/
def HourSame (rates : Rates) (usage : BillableUsage) : Prop :=
  rates.cacheWritePricePerMillion.getD 0 = 0 ∨
    quantizeCost (besideHour rates usage + meterCost usage.cacheWrite1hTokens
        (rates.inputPricePerMillion * claude1hCacheWriteInputMultiple)) =
      quantizeCost (besideHour rates usage +
        meterSome usage.cacheWrite1hTokens rates.cacheWritePricePerMillion)

/-- The rate's key and the row's agree on Claude's 1-hour cache writes, or those make no
difference. -/
def HourAlike (event : ExternalUsageEvent) (pricing : Pricing.ModelPricing) : Prop :=
  ∀ rates, effectiveRates pricing.rate.toPricing (buildUsage event).totalInputTokens = .ok rates →
    claudeKey pricing.modelKey = claudeKey (event.provider ++ ':' :: event.model) ∨
      HourSame rates (buildUsage event)

variable {rates : Rates}

/-- Cache writes that are charged for: those of the hour are charged apart for a Claude model, and
with the others for another. -/
theorem amount_hourly (hwrite : rates.cacheWritePricePerMillion.getD 0 ≠ 0)
    (usage : BillableUsage) :
    amount (hourly rates true) usage = quantizeCost (besideHour rates usage +
        meterCost usage.cacheWrite1hTokens
          (rates.inputPricePerMillion * claude1hCacheWriteInputMultiple)) ∧
      amount (hourly rates false) usage = quantizeCost (besideHour rates usage +
        meterSome usage.cacheWrite1hTokens rates.cacheWritePricePerMillion) := by
  obtain ⟨write, hrate⟩ : ∃ write, rates.cacheWritePricePerMillion = some write := by
    cases h : rates.cacheWritePricePerMillion with
    | none => rw [h] at hwrite; exact absurd rfl hwrite
    | some write => exact ⟨write, rfl⟩
  have htrue : (hourly rates true).cacheWrite1hPricePerMillion =
      some (rates.inputPricePerMillion * claude1hCacheWriteInputMultiple) := if_pos ⟨hwrite, rfl⟩
  have hfalse : (hourly rates false).cacheWrite1hPricePerMillion = none := if_neg fun h => by
    cases h.2
  have hbase : ∀ claude, freshInputTokens (hourly rates claude) usage = freshInputTokens rates usage ∧
      (hourly rates claude).inputPricePerMillion = rates.inputPricePerMillion ∧
      (hourly rates claude).outputPricePerMillion = rates.outputPricePerMillion ∧
      (hourly rates claude).cacheReadPricePerMillion = rates.cacheReadPricePerMillion ∧
      (hourly rates claude).cacheWritePricePerMillion = some write :=
    fun _ => ⟨rfl, rfl, rfl, rfl, hrate⟩
  constructor
  · obtain ⟨hfresh, hinput, houtput, hread, hwrites⟩ := hbase true
    rw [amount, chargeMeters_cost, hfresh, hinput, houtput, hread, hwrites, oneHourWriteTokens, htrue,
      besideHour, hrate]
    rfl
  · obtain ⟨hfresh, hinput, houtput, hread, hwrites⟩ := hbase false
    rw [amount, chargeMeters_cost, hfresh, hinput, houtput, hread, hwrites, oneHourWriteTokens, hfalse,
      besideHour, hrate]
    congr 1
    simp only [meterSome, meterCost, Option.map_some, Option.getD_some, Option.map_none,
      Option.getD_none, Option.isSome_none, Bool.false_eq_true, if_false]
    push_cast
    ring

theorem hourSame_iff :
    HourSame rates usage ↔ amount (hourly rates true) usage = amount (hourly rates false) usage := by
  by_cases hwrite : rates.cacheWritePricePerMillion.getD 0 = 0
  · have hsame : hourly rates true = hourly rates false := by
      rw [hourly, hourly, if_neg fun h => h.1 hwrite, if_neg fun h => h.1 hwrite]
    exact iff_of_true (.inl hwrite) (by rw [hsame])
  · obtain ⟨htrue, hfalse⟩ := amount_hourly hwrite usage
    rw [htrue, hfalse]
    exact or_iff_right hwrite

theorem hourly_ratesAt {pricing : Pricing} {tier : Option Tier}
    (h : ratesAt pricing tier = .ok rates) : hourly rates (isClaude pricing) = rates := by
  rw [ratesAt] at h
  split at h
  · cases h
    rfl
  · cases h

theorem hourly_effectiveRates {total : ℤ}
    (h : effectiveRates pricing.rate.toPricing total = .ok rates) :
    hourly rates (claudeKey pricing.modelKey) = rates := by
  have hclaude : claudeKey pricing.modelKey = isClaude pricing.rate.toPricing := rfl
  obtain ⟨tier, -, h⟩ := bind_eq_ok.mp h
  rw [hclaude]
  exact hourly_ratesAt h

theorem effectiveRates_manual {request : SetPriceRequest} (h : request.AsksFor rates)
    (row : StoredRow Id Other) (total : ℤ) :
    effectiveRates (manualPricing request row) total = .ok (hourly rates (claudeKey (manualKey row))) := by
  have hvalue : ∀ field, tieredValue (manualPricing request row) none field =
      toDecimal (request.rates field) := fun _ => rfl
  have hrates : effectiveRates (manualPricing request row) total =
      ratesAt (manualPricing request row) none := rfl
  simp only [hrates, ratesAt, hvalue, h.input, h.output, h.cacheRead, h.cacheWrite]
  rfl

theorem cost_of_priced {pricing : Pricing} {priced : Priced}
    (h : priceBillableUsage pricing usage = .ok priced)
    (hrates : effectiveRates pricing usage.totalInputTokens = .ok rates) :
    priced.cost = amount rates usage := by
  obtain ⟨exact, hexact, h⟩ := bind_eq_ok.mp h
  obtain ⟨found, hfound, hmeters⟩ := bind_eq_ok.mp hexact
  rw [hrates] at hfound
  obtain rfl := Except.ok.inj hfound
  rw [← Except.ok.inj h, ← Except.ok.inj hmeters, amount]

theorem priced_of_rates {pricing : Pricing}
    (h : effectiveRates pricing usage.totalInputTokens = .ok rates) :
    ∃ priced, priceBillableUsage pricing usage = .ok priced := by
  simp only [priceBillableUsage, priceMeters, h]
  exact ⟨_, rfl⟩

theorem exists_asksFor {pricing : Pricing} {total : ℤ}
    (h : effectiveRates pricing total = .ok rates) :
    ∃ request : SetPriceRequest, request.AsksFor rates := by
  obtain ⟨tier, -, h⟩ := bind_eq_ok.mp h
  rw [ratesAt] at h
  split at h
  · rename_i input output hinput houtput
    cases h
    have hfloat : ∀ {q : ℚ}, 0 ≤ q → toDecimal (.float q q) = some q := by
      intro q hq
      simp [toDecimal, RawValue.candidate, Option.filter, hq]
    have hcache : ∀ field, toDecimal ((tieredValue pricing tier field).elim .none fun q => .float q q) =
        tieredValue pricing tier field := by
      intro field
      cases hvalue : tieredValue pricing tier field with
      | none => rfl
      | some q => exact hfloat (tieredValue_nonneg hvalue)
    have hmanual : ∀ field, ManualRate field
        ((tieredValue pricing tier field).elim .none fun q => .float q q) := by
      intro field
      cases hvalue : tieredValue pricing tier field with
      | none =>
        cases field with
        | inputPricePerMillion => rw [hinput] at hvalue; cases hvalue
        | outputPricePerMillion => rw [houtput] at hvalue; cases hvalue
        | cacheReadPricePerMillion => exact .inl rfl
        | cacheWritePricePerMillion => exact .inr rfl
      | some q =>
        show (0 : ℚ) ≤ q
        exact tieredValue_nonneg hvalue
    exact ⟨⟨_, hmanual⟩, (hcache _).trans hinput, (hcache _).trans houtput, hcache _, hcache _⟩
  · cases h

theorem reprice_stored_iff (hrow : buildRow importer event (some pricing) = .ok row)
    (hrates : effectiveRates pricing.rate.toPricing (buildUsage event).totalInputTokens = .ok rates)
    {request : SetPriceRequest} (hasks : request.AsksFor rates) (recorded : Bool) (id : Id)
    (other : Other) :
    reprice request (stored row recorded id other) = .ok (stored row recorded id other, false) ↔
      amount rates (buildUsage event) =
        amount (hourly rates (claudeKey (event.provider ++ ':' :: event.model))) (buildUsage event) := by
  obtain ⟨priced, hpriced, -, hcost⟩ := priced_of_buildRow hrow
  have hkey : manualKey (stored row recorded id other) = event.provider ++ ':' :: event.model := by
    unfold buildRow at hrow
    obtain ⟨some?, -, hrow⟩ := bind_eq_ok.mp hrow
    rw [← Except.ok.inj hrow]
    rfl
  have hmanual := effectiveRates_manual hasks (stored row recorded id other)
    (buildUsage event).totalInputTokens
  rw [hkey] at hmanual
  obtain ⟨again, hagain⟩ := priced_of_rates hmanual
  have hstored : (stored row recorded id other).cost = some priced.cost := hcost
  rw [reprice, rowUsage_stored hrow, hagain, ← cost_of_priced hpriced hrates,
    ← cost_of_priced hagain hmanual]
  simp only [ok_bind, hstored, Option.some.injEq]
  split
  · rename_i hsame
    exact iff_of_true rfl hsame
  · rename_i hsame
    refine iff_of_false (fun h => ?_) hsame
    cases (Prod.mk.inj (Except.ok.inj h)).2

/-- **Repricing at the rates that priced a row leaves it, if and only if the keys agree on the 1-hour
cache writes or those come to the same.** -/
theorem leavesCost_iff : LeavesCost importer event pricing ↔ HourAlike event pricing := by
  constructor
  · intro h rates hrates
    obtain ⟨request, hasks⟩ := exists_asksFor hrates
    obtain ⟨priced, hpriced⟩ := priced_of_rates hrates
    obtain ⟨row, hrow⟩ : ∃ row, buildRow importer event (some pricing) = .ok row := by
      simp only [buildRow, hpriced]
      exact ⟨_, rfl⟩
    have hsame := (reprice_stored_iff hrow hrates hasks true () ()).mp
      (h row hrow rates hrates request hasks true Unit Unit () ())
    have hown := hourly_effectiveRates hrates
    revert hsame hown
    cases claudeKey pricing.modelKey <;>
      cases claudeKey (event.provider ++ ':' :: event.model) <;> intro hsame hown
    · exact .inl rfl
    · rw [← hown] at hsame
      exact .inr (hourSame_iff.mpr hsame.symm)
    · rw [← hown] at hsame
      exact .inr (hourSame_iff.mpr hsame)
    · exact .inl rfl
  · intro h row hrow rates hrates request hasks recorded Id Other id other
    refine (reprice_stored_iff hrow hrates hasks recorded id other).mpr ?_
    have hown := hourly_effectiveRates hrates
    rcases h rates hrates with hkey | hsame
    · rw [← hkey, hown]
    · rw [hourSame_iff] at hsame
      revert hown
      cases claudeKey pricing.modelKey <;>
        cases claudeKey (event.provider ++ ':' :: event.model) <;> intro hown
      · rw [hown]
      · rw [hsame, hown]
      · rw [← hsame, hown]
      · rw [hown]

end Otari.Usage

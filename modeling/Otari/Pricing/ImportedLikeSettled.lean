import Otari.Pricing.ImportedUsage

/-!
# Pricing — ImportedLikeSettled — imported usage against settled usage

Both resolve down one ladder, under spellings of their own (`resolvePricing_eq`,
`findModelPricing_eq`).  They part on a provider with a colon, whose legacy spelling each splits
elsewhere (`rates_agree_iff`), and on a rate that completions are not metered by, which the import
reads as a token rate (`costs_agree_iff`).
-/

namespace Otari.Pricing
open Select Index List
open Option hiding map map_map mem_map
open Metered (RawValue PricingError)

/-! ### The ladder -/

/-- The override rung: the newest covering row under the first key that has one. -/
def overrideRung (lists : PriceLists) (organizationId : Option ℕ) (keys : List Key)
    (asOf : Instant) : Option ModelPricing :=
  organizationId.bind fun organization =>
    (selectedRow lists.overrides organization keys asOf false).map overrideAsModelPricing

def deploymentRung (lists : PriceLists) (keys : List Key) (asOf : Instant) :
    Option ModelPricing :=
  keys.findSome? fun key => findByModelKey lists.modelPricing key asOf

/-- The rungs under given keys, the dataset's the last. -/
def ladder (lists : PriceLists) (organizationId : Option ℕ) (keys : List Key) (provider model : Key)
    (asOf : Instant) : Option ModelPricing :=
  ((overrideRung lists organizationId keys asOf).or (deploymentRung lists keys asOf)).or
    ((defaultPricing lists.tables (some provider) model asOf).map (·.pricing))

section
variable {lists : PriceLists} {organizationId : Option ℕ} {provider model : Key} {asOf : Instant}

theorem modelKeyOf_provider (hp : provider ≠ []) :
    modelKeyOf (some provider) model = selectorKey provider model := by
  cases provider with
  | nil => exact absurd rfl hp
  | cons c rest => rfl

theorem newestVersion_eq {versions : List (Instant × ModelPricing)}
    (hs : versions.Pairwise fun a b => a.1 ≤ b.1) (found : Option ModelPricing) :
    newestVersion asOf versions found =
      ((versions.filter fun v => v.1 ≤ asOf).getLast?.map Prod.snd).or found := by
  induction versions generalizing found with
  | nil => rfl
  | cons version versions ih =>
    obtain ⟨hfirst, hs⟩ := pairwise_cons.mp hs
    rw [newestVersion]
    by_cases hle : version.1 ≤ asOf
    · rw [if_pos hle, ih hs, filter_cons_of_pos (by simpa using hle), List.getLast?_cons]
      cases (versions.filter fun v => v.1 ≤ asOf).getLast? <;> rfl
    · -- every later version starts later still, so the break loses nothing
      have hnone : (version :: versions).filter (fun v => v.1 ≤ asOf) = [] := by
        rw [filter_eq_nil_iff]
        intro v hv happ
        have hv' : v.1 ≤ asOf := by simpa using happ
        rcases mem_cons.mp hv with rfl | hv
        · exact hle hv'
        · exact hle ((hfirst v hv).trans hv')
      rw [if_neg hle, hnone]
      rfl

theorem newestVersion_deployment {pairs : List (Key × Key)} {key : Key}
    (hk : key ∈ pairs.flatMap fun pair => modelKeys pair.1 pair.2) :
    newestVersion asOf ((loadPricingIndex lists.tables pairs organizationId).deployment key) none =
      findByModelKey lists.modelPricing key asOf := by
  obtain ⟨chunk, hc, hscan⟩ := scan_batched (·.modelKey) (selectVersions lists.modelPricing)
    (fun chunk row hrow => by simp [selectVersions] at hrow; exact hrow.2.2) hk
  have hmem : ∀ row, row ∈ scan (·.modelKey) key (selectVersions lists.modelPricing chunk) ↔
      row ∈ lists.modelPricing ∧ row.kind = .model ∧ row.modelKey = key := by
    intro row
    simp only [scan, selectVersions, mem_filter, decide_eq_true_eq]
    exact ⟨fun h => ⟨h.1.1, h.1.2.1, h.2⟩, fun h => ⟨⟨h.1, h.2.1, h.2.2 ▸ hc⟩, h.2.2⟩⟩
  have hloaded : (loadPricingIndex lists.tables pairs organizationId).deployment key =
      orderBy Prod.fst ((scan (·.modelKey) key (selectVersions lists.modelPricing chunk)).map
        fun row => (row.effectiveAt, row)) := by
    rw [← hscan]
    simp only [loadPricingIndex]
    rw [foldl_batched_push]
    rfl
  have hinj : ∀ a ∈ versionsInEffect lists.modelPricing key asOf,
      ∀ b ∈ versionsInEffect lists.modelPricing key asOf,
        a.effectiveAt = b.effectiveAt → a = b := by
    intro a ha b hb hab
    obtain ⟨ha, hak, hakey, -⟩ := mem_versionsInEffect.mp ha
    obtain ⟨hb, hbk, hbkey, -⟩ := mem_versionsInEffect.mp hb
    exact lists.distinctVersions a ha b hb (hak.trans hbk.symm) (hakey.trans hbkey.symm) hab
  have hpairs : ∀ v, v ∈ ((loadPricingIndex lists.tables pairs organizationId).deployment
      key).filter (fun v => v.1 ≤ asOf) ↔
      v ∈ (versionsInEffect lists.modelPricing key asOf).map fun row => (row.effectiveAt, row) := by
    intro v
    rw [hloaded]
    simp only [mem_filter, mem_orderBy, mem_map, hmem, mem_versionsInEffect,
      decide_eq_true_eq]
    constructor
    · rintro ⟨⟨row, ⟨hr, hk, hkey⟩, rfl⟩, hle⟩
      exact ⟨row, ⟨hr, hk, hkey, hle⟩, rfl⟩
    · rintro ⟨row, ⟨hr, hk, hkey, hle⟩, rfl⟩
      exact ⟨⟨row, ⟨hr, hk, hkey⟩, rfl⟩, hle⟩
  have hpinj : ∀ v ∈ ((loadPricingIndex lists.tables pairs organizationId).deployment
      key).filter (fun v => v.1 ≤ asOf),
      ∀ v' ∈ ((loadPricingIndex lists.tables pairs organizationId).deployment
        key).filter (fun v => v.1 ≤ asOf), v.1 = v'.1 → v = v' := by
    intro v hv v' hv' he
    obtain ⟨a, ha, rfl⟩ := mem_map.mp ((hpairs v).mp hv)
    obtain ⟨b, hb, rfl⟩ := mem_map.mp ((hpairs v').mp hv')
    rw [hinj a ha b hb he]
  have hsorted : ((loadPricingIndex lists.tables pairs organizationId).deployment key).Pairwise
      fun a b => a.1 ≤ b.1 := by
    rw [hloaded]
    exact pairwise_orderBy Prod.fst _
  rw [newestVersion_eq hsorted, or_none, getLast?_eq_firstMax (hsorted.filter _) hpinj,
    firstMax_congr hpairs hpinj, firstMax_map, Option.map_map]
  exact map_id'

theorem pricingKeyForms_selectorKey : pricingKeyForms (selectorKey provider model) =
      [selectorKey provider model, lookupLegacyKey provider model] := by
  cases hsplit : partition ':' provider with
  | mk instanceName rest =>
    cases rest with
    | some rest =>
      have hprovider := partition_eq_some hsplit
      have hplain : ∀ c ∈ instanceName, c ≠ ':' := by
        intro c hc
        rw [← (Prod.mk.inj hsplit).1] at hc
        simpa using mem_takeWhile_imp hc
      have hkey : selectorKey provider model =
          instanceName ++ ':' :: (selectorKey rest model) := by
        rw [hprovider]
        simp [selectorKey]
      rw [pricingKeyForms, lookupLegacyKey, hsplit, hkey, partition_append hplain]
    | none =>
      have hplain : ∀ c ∈ provider, c ≠ ':' := by
        obtain ⟨-, hrest⟩ := Prod.mk.inj hsplit
        intro c hc he
        have hdrop : provider.dropWhile (· ≠ ':') ≠ [] := by
          rw [ne_eq, dropWhile_eq_nil_iff]
          intro h
          exact absurd (h c hc) (by simp [he])
        cases hd : provider.dropWhile (· ≠ ':') with
        | nil => exact hdrop hd
        | cons x xs =>
          rw [hd] at hrest
          cases hrest
      rw [pricingKeyForms, lookupLegacyKey, hsplit, selectorKey, partition_append hplain]

/-- **The import resolves down the ladder**, under its own two spellings. -/
theorem resolvePricing_eq {pairs : List (Key × Key)} (hmem : (provider, model) ∈ pairs) :
    resolvePricing lists.tables (loadPricingIndex lists.tables pairs organizationId) provider model
        asOf = ladder lists organizationId (modelKeys provider model) provider model asOf := by
  have hkeys : ∀ k ∈ modelKeys provider model,
      k ∈ pairs.flatMap fun pair => modelKeys pair.1 pair.2 := fun k hk =>
    mem_flatMap.mpr ⟨(provider, model), hmem, hk⟩
  have hoverride : resolveOrganizationOverride
      (loadPricingIndex lists.tables pairs organizationId).overrides (modelKeys provider model)
        asOf = overrideRung lists organizationId (modelKeys provider model) asOf := by
    cases organizationId with
    | none => rfl
    | some organization => exact resolve_index lists.distinctStarts organization hkeys asOf false
  have hdeployment : ((modelKeys provider model).findSome? fun key => newestVersion asOf
      ((loadPricingIndex lists.tables pairs organizationId).deployment key) none) =
      deploymentRung lists (modelKeys provider model) asOf :=
    findSome?_congr fun key hk => newestVersion_deployment (hkeys key hk)
  rw [resolvePricing, hoverride, hdeployment, ladder]
  cases overrideRung lists organizationId (modelKeys provider model) asOf with
  | some row => rfl
  | none => cases deploymentRung lists (modelKeys provider model) asOf <;> rfl

theorem findModelPricing_eq (hp : provider ≠ []) :
    findModelPricing lists.tables (some provider) model asOf organizationId =
      ladder lists organizationId (pricingKeyForms (selectorKey provider model)) provider model
        asOf := by
  have hoverride : (organizationId.bind fun organization =>
      findOrganizationOverride lists.overrides organization
        (pricingKeyForms (selectorKey provider model)) asOf false).map overrideAsModelPricing =
      overrideRung lists organizationId (pricingKeyForms (selectorKey provider model)) asOf := by
    cases organizationId with
    | none => rfl
    | some organization =>
      rw [overrideRung, bind_some, bind_some, findOrganizationOverride_eq
        lists.distinctStarts organization (pricingKeyForms_nodup _)]
  have hdeployment : ((pricingKeyForms (selectorKey provider model)).findSome? fun key =>
      (findByModelKey lists.modelPricing key asOf).map ofDeployment).map (·.pricing) =
      deploymentRung lists (pricingKeyForms (selectorKey provider model)) asOf := by
    rw [map_findSome?]
    refine findSome?_congr fun key _ => ?_
    rw [Function.comp_apply, Option.map_map]
    exact map_id'
  rw [findModelPricing, resolveModelPricing, getD_none, modelKeyOf_provider hp,
    storedPricing, ladder, ← hoverride, ← hdeployment, map_or, map_or,
    Option.map_map]
  rfl

/-! ### Two spellings -/

end

theorem mem_or_of_eq_some {α : Type} {p q : Option α} {x : α} (h : p.or q = some x) : x ∈ p ∨ x ∈ q :=
  (or_eq_some_iff.mp h).imp id And.right

/-- Two ladders that part in what they ask under a legacy key answer alike where a first rung
answers, or where neither legacy key does before one. -/
theorem ladders_eq_iff {α κ : Type} (keyOf : α → κ) {k l l' : κ} (hl : l ≠ l') (hkl : k ≠ l)
    (hkl' : k ≠ l') {a b b' c d d' e : Option α} (hb : ∀ x ∈ b, keyOf x = l)
    (hb' : ∀ x ∈ b', keyOf x = l') (hc : ∀ x ∈ c, keyOf x = k) (hd : ∀ x ∈ d, keyOf x = l)
    (hd' : ∀ x ∈ d', keyOf x = l') (he : ∀ x ∈ e, keyOf x = k) :
    ((a.or b).or (c.or d)).or e = ((a.or b').or (c.or d')).or e ↔
      a.isSome = true ∨ b = none ∧ b' = none ∧ (c.isSome = true ∨ d = none ∧ d' = none) := by
  cases a with
  | some x => simp
  | none =>
    simp only [none_or, isSome_none, Bool.false_eq_true, false_or]
    constructor
    · intro h
      -- an answer under one spelling is no answer under the other's keys
      have hbnone : b = none := by
        cases b with
        | none => rfl
        | some x =>
          have hx := hb x rfl
          rcases mem_or_of_eq_some h.symm with h | h
          · rcases mem_or_of_eq_some h with h | h
            · exact absurd (hx.symm.trans (hb' x h)) hl
            · rcases mem_or_of_eq_some h with h | h
              · exact absurd ((hc x h).symm.trans hx) hkl
              · exact absurd (hx.symm.trans (hd' x h)) hl
          · exact absurd ((he x h).symm.trans hx) hkl
      have hbnone' : b' = none := by
        cases b' with
        | none => rfl
        | some x =>
          have hx := hb' x rfl
          rcases mem_or_of_eq_some h with h | h
          · rcases mem_or_of_eq_some h with h | h
            · exact absurd ((hb x h).symm.trans hx) hl
            · rcases mem_or_of_eq_some h with h | h
              · exact absurd ((hc x h).symm.trans hx) hkl'
              · exact absurd ((hd x h).symm.trans hx) hl
          · exact absurd ((he x h).symm.trans hx) hkl'
      subst hbnone hbnone'
      refine ⟨rfl, rfl, ?_⟩
      cases c with
      | some x => exact .inl rfl
      | none =>
        simp only [none_or] at h
        refine .inr ⟨?_, ?_⟩
        · cases d with
          | none => rfl
          | some x =>
            have hx := hd x rfl
            rcases mem_or_of_eq_some h.symm with h | h
            · exact absurd (hx.symm.trans (hd' x h)) hl
            · exact absurd ((he x h).symm.trans hx) hkl
        · cases d' with
          | none => rfl
          | some x =>
            have hx := hd' x rfl
            rcases mem_or_of_eq_some h with h | h
            · exact absurd ((hd x h).symm.trans hx) hl
            · exact absurd ((he x h).symm.trans hx) hkl'
    · rintro ⟨rfl, rfl, hc | ⟨rfl, rfl⟩⟩
      · obtain ⟨x, rfl⟩ := isSome_iff_exists.mp hc
        rfl
      · rfl

section
variable {lists : PriceLists} {organizationId : Option ℕ} {provider model : Key} {asOf : Instant}

def overrideOf (lists : PriceLists) (organizationId : Option ℕ) (asOf : Instant) (key : Key) :
    Option ModelPricing :=
  organizationId.bind fun organization =>
    (firstMax (·.effectiveFrom) (applicable lists.overrides organization asOf false key)).map
      overrideAsModelPricing

variable {key : Key}

theorem overrideOf_modelKey :
    ∀ row ∈ overrideOf lists organizationId asOf key, row.modelKey = key := by
  intro row hrow
  obtain ⟨organization, -, hrow⟩ := bind_eq_some_iff.mp hrow
  obtain ⟨override, hfirst, rfl⟩ := map_eq_some_iff.mp hrow
  exact (mem_applicable.mp (firstMax_mem hfirst)).2.2.1

theorem overrideOf_eq_none : overrideOf lists organizationId asOf key = none ↔
      ¬ lists.Overridden organizationId asOf key := by
  cases organizationId with
  | none =>
    refine ⟨fun _ => ?_, fun _ => rfl⟩
    rintro ⟨row, -, ho, -⟩
    cases ho
  | some organization =>
    rw [overrideOf, bind_some, map_eq_none_iff, firstMax_eq_none,
      eq_nil_iff_forall_not_mem]
    constructor
    · rintro h ⟨row, hr, ho, hk, hkey, hcovers⟩
      have ho := Option.some.inj ho
      exact h row (mem_applicable.mpr ⟨hr, ⟨ho.symm, hk⟩, hkey, hcovers, fun he => by cases he⟩)
    · intro h row hmem
      obtain ⟨hr, ho, hkey, hcovers, -⟩ := mem_applicable.mp hmem
      exact h ⟨row, hr, by rw [ho.1], ho.2, hkey, hcovers⟩

theorem findByModelKey_modelKey {rows : List ModelPricing} :
    ∀ row ∈ findByModelKey rows key asOf, row.modelKey = key := by
  intro row hrow
  exact (mem_versionsInEffect.mp (firstMax_mem hrow)).2.2.1

theorem findByModelKey_eq_none :
    findByModelKey lists.modelPricing key asOf = none ↔ ¬ lists.InEffect asOf key := by
  rw [findByModelKey, firstMax_eq_none, eq_nil_iff_forall_not_mem]
  constructor
  · rintro h ⟨row, hr, hk, hkey, hle⟩
    exact h row (mem_versionsInEffect.mpr ⟨hr, hk, hkey, hle⟩)
  · intro h row hmem
    obtain ⟨hr, hk, hkey, hle⟩ := mem_versionsInEffect.mp hmem
    exact h ⟨row, hr, hk, hkey, hle⟩

theorem defaultPricing_modelKey (hp : provider ≠ []) :
    ∀ row ∈ (defaultPricing lists.tables (some provider) model asOf).map (·.pricing),
      row.modelKey = selectorKey provider model := by
  intro row hrow
  obtain ⟨resolved, hresolved, rfl⟩ := map_eq_some_iff.mp hrow
  rw [defaultPricing] at hresolved
  split at hresolved
  · obtain ⟨matched, hmatched, rfl⟩ := map_eq_some_iff.mp hresolved
    obtain ⟨entry, -, rfl⟩ := map_eq_some_iff.mp hmatched
    exact modelKeyOf_provider hp
  · cases hresolved

theorem ladder_pair (k l : Key) : ladder lists organizationId [k, l] provider model asOf =
      (((overrideOf lists organizationId asOf k).or (overrideOf lists organizationId asOf l)).or
        ((findByModelKey lists.modelPricing k asOf).or
          (findByModelKey lists.modelPricing l asOf))).or
        ((defaultPricing lists.tables (some provider) model asOf).map (·.pricing)) := by
  have hoverride : overrideRung lists organizationId [k, l] asOf =
      (overrideOf lists organizationId asOf k).or (overrideOf lists organizationId asOf l) := by
    cases organizationId with
    | none => rfl
    | some organization =>
      simp only [overrideRung, overrideOf, bind_some, selectedRow, List.findSome?_cons,
        List.findSome?_nil, ← map_or]
      cases firstMax (·.effectiveFrom) (applicable lists.overrides organization asOf false k) with
      | some row => rfl
      | none =>
        cases firstMax (·.effectiveFrom)
          (applicable lists.overrides organization asOf false l) <;> rfl
  have hdeployment : deploymentRung lists [k, l] asOf =
      (findByModelKey lists.modelPricing k asOf).or (findByModelKey lists.modelPricing l asOf) := by
    rw [deploymentRung, List.findSome?_cons, List.findSome?_cons, List.findSome?_nil]
    cases findByModelKey lists.modelPricing k asOf with
    | some row => rfl
    | none => cases findByModelKey lists.modelPricing l asOf <;> rfl
  rw [ladder, hoverride, hdeployment]

theorem selectorKey_ne_legacy : selectorKey provider model ≠ provider ++ '/' :: model := by
  rw [selectorKey, ne_eq, append_cancel_left_eq]
  exact fun h => absurd (List.cons.inj h).1 (by decide)

theorem lookupLegacyKey_of_colon (model : Key) (h : ':' ∈ provider) :
    provider ++ '/' :: model ≠ lookupLegacyKey provider model ∧
      selectorKey provider model ≠ lookupLegacyKey provider model := by
  cases hsplit : partition ':' provider with
  | mk instanceName rest =>
    cases rest with
    | none =>
      have hdrop : provider.dropWhile (· ≠ ':') = [] := by
        have hrest := (Prod.mk.inj hsplit).2
        cases hd : provider.dropWhile (· ≠ ':') with
        | nil => rfl
        | cons c cs =>
          rw [hd] at hrest
          cases hrest
      have hcolon := dropWhile_eq_nil_iff.mp hdrop ':' h
      simp at hcolon
    | some rest =>
      rw [lookupLegacyKey, hsplit, partition_eq_some hsplit]
      refine ⟨fun he => ?_, fun he => ?_⟩
      · rw [append_assoc, append_cancel_left_eq] at he
        exact absurd (List.cons.inj he).1 (by decide)
      · rw [selectorKey, append_assoc, append_cancel_left_eq] at he
        exact absurd (List.cons.inj he).1 (by decide)

theorem lookupLegacyKey_of_plain (h : ':' ∉ provider) :
    lookupLegacyKey provider model = provider ++ '/' :: model := by
  have hplain : ∀ c ∈ provider, c ≠ ':' := by
    rintro c hc rfl
    exact h hc
  have hsplit : partition ':' provider = (provider, none) := by
    have hdrop : provider.dropWhile (· ≠ ':') = [] :=
      dropWhile_eq_nil_iff.mpr fun c hc => by simpa using hplain c hc
    have htake : provider.takeWhile (· ≠ ':') = provider :=
      takeWhile_eq_self_iff.mpr fun c hc => by simpa using hplain c hc
    rw [partition, hdrop, htake]
    rfl
  rw [lookupLegacyKey, hsplit]

/-- **Where the rates agree.** -/
theorem rates_agree_iff {events : List ExternalUsageEvent} {event : ExternalUsageEvent}
    (h : event ∈ events) : importedRate lists organizationId events event =
        findModelPricing lists.tables (some event.provider) event.model event.timestamp
          organizationId ↔ SpelledAlike lists organizationId event := by
  have hmem : (event.provider, event.model) ∈ events.map fun e => (e.provider, e.model) :=
    mem_map.mpr ⟨event, h, rfl⟩
  rw [importedRate, resolvePricing_eq hmem, findModelPricing_eq event.provider_ne,
    pricingKeyForms_selectorKey, modelKeys, SpelledAlike]
  by_cases hcolon : ':' ∈ event.provider
  · obtain ⟨hlegacy, hkey⟩ := lookupLegacyKey_of_colon event.model hcolon
    rw [ladder_pair, ladder_pair, ladders_eq_iff (·.modelKey) hlegacy selectorKey_ne_legacy hkey
      overrideOf_modelKey overrideOf_modelKey findByModelKey_modelKey findByModelKey_modelKey
      findByModelKey_modelKey (defaultPricing_modelKey event.provider_ne)]
    simp only [hcolon, not_true_eq_false, false_or, isSome_iff_ne_none, ne_eq,
      overrideOf_eq_none, findByModelKey_eq_none, not_not]
  · rw [lookupLegacyKey_of_plain hcolon]
    exact ⟨fun _ => .inl hcolon, fun _ => rfl⟩

end

/-! ### The cost -/

theorem buildRow_cost (importer : Importer) (event : ExternalUsageEvent)
    (pricing : Option ModelPricing) :
    (buildRow importer event pricing).map (·.cost) = match pricing with
      | none => .ok none
      | some pricing => (Metered.priceBillableUsage pricing.rate.toPricing (buildUsage event)).map
          fun priced => some priced.cost := by
  cases pricing with
  | none => rfl
  | some pricing =>
    simp only [buildRow]
    cases Metered.priceBillableUsage pricing.rate.toPricing (buildUsage event) <;> rfl

variable {e : PricingError}

theorem tierThreshold_error {tier : Metered.Tier}
    (h : Metered.tierThreshold tier = .error e) : e = .overflow := by
  have hint : ∀ raw : RawValue, ∀ e, raw.toInt = .error e → e = .overflow := by
    intro raw e he
    cases raw <;> cases he
    rfl
  rw [Metered.tierThreshold] at h
  split at h
  · cases h
  · cases hv : (tier.minInputTokens.getD (.int 0)).toInt with
    | error e' =>
      rw [hv] at h
      cases h
      exact hint _ _ hv
    | ok v =>
      rw [hv] at h
      cases h

theorem reachedTiers_error {n : ℤ} {tiers : List (Option Metered.Tier)}
    (h : Metered.reachedTiers n tiers = .error e) : e = .overflow := by
  induction tiers with
  | nil => cases h
  | cons tier tiers ih =>
    cases tier with
    | none => exact ih h
    | some tier =>
      rw [Metered.reachedTiers] at h
      cases ht : Metered.tierThreshold tier with
      | error e' =>
        rw [ht] at h
        cases h
        exact tierThreshold_error ht
      | ok threshold =>
        rw [ht, ok_bind] at h
        cases hr : Metered.reachedTiers n tiers with
        | error e' =>
          rw [hr] at h
          cases h
          exact ih hr
        | ok reached =>
          rw [hr, ok_bind] at h
          cases threshold <;> cases h

theorem effectiveRates_error {pricing : Metered.Pricing} {n : ℤ}
    (h : Metered.effectiveRates pricing n = .error e) : e ≠ .noUsableRequestRate := by
  rw [Metered.effectiveRates] at h
  cases ht : Metered.applicableTier pricing.pricingTiers n with
  | error e' =>
    rw [ht] at h
    cases h
    cases hp : pricing.pricingTiers with
    | none =>
      rw [hp] at ht
      cases ht
    | some tiers =>
      rw [hp, Metered.applicableTier] at ht
      cases hr : Metered.reachedTiers n tiers with
      | error e'' =>
        rw [hr] at ht
        cases ht
        rw [reachedTiers_error hr]
        exact fun he => by cases he
      | ok reached =>
        rw [hr] at ht
        cases ht
  | ok tier =>
    rw [ht, ok_bind, Metered.ratesAt] at h
    dsimp only at h
    split at h
    · cases h
    · cases h
      exact fun he => by cases he

theorem importedCost_eq (pricing : Metered.Pricing) (usage : Metered.BillableUsage) :
    ((Metered.priceBillableUsage pricing usage).map fun priced => some priced.cost) =
      (Metered.effectiveRates pricing usage.totalInputTokens).map fun rates =>
        some (Metered.quantizeCost (Metered.chargeMeters rates usage).cost) := by
  rw [Metered.priceBillableUsage, Metered.priceMeters]
  cases Metered.effectiveRates pricing usage.totalInputTokens <;> rfl

theorem requestCost_agrees_iff (row : ModelPricing) (event : ExternalUsageEvent) :
    ((Metered.effectiveRates row.rate.toPricing (buildUsage event).totalInputTokens).map fun rates =>
        some (Metered.quantizeCost (Metered.chargeMeters rates (buildUsage event)).cost)) =
      ((Metered.priceRequest row.rate.toPricing).map some).map (Option.map (·.cost)) ↔
    ComesToOneRequest row event := by
  rw [ComesToOneRequest, Metered.priceRequest]
  cases hr : Metered.effectiveRates row.rate.toPricing (buildUsage event).totalInputTokens with
  | error e =>
    have hne := effectiveRates_error hr
    refine iff_of_false ?_ ?_
    · rw [Metered.requestCost]
      split
      · exact fun h => by cases h
      · intro h
        exact hne (Except.error.inj h)
    · rintro ⟨rates, one, hrates, -⟩
      cases hrates
  | ok rates =>
    cases ho : Metered.requestCost row.rate.toPricing with
    | error e =>
      refine iff_of_false (fun h => by cases h) ?_
      rintro ⟨rates, one, -, hone, -⟩
      cases hone
    | ok one =>
      constructor
      · intro h
        exact ⟨rates, one, rfl, rfl, Option.some.inj (Except.ok.inj h)⟩
      · rintro ⟨rates', one', hrates, hone, he⟩
        cases hrates
        cases hone
        exact congrArg (fun cost => Except.ok (some cost)) he

theorem importedCost_ne_none (pricing : Metered.Pricing) (usage : Metered.BillableUsage) :
    ((Metered.effectiveRates pricing usage.totalInputTokens).map fun rates =>
        some (Metered.quantizeCost (Metered.chargeMeters rates usage).cost)) ≠ .ok none := by
  cases Metered.effectiveRates pricing usage.totalInputTokens with
  | error e => exact fun h => by cases h
  | ok rates => exact fun h => by cases h

/-- **Where the costs agree.** -/
theorem costs_agree_iff (importer : Importer) (event : ExternalUsageEvent)
    (rate : Option ModelPricing) :
    (buildRow importer event rate).map (·.cost) = settledCost event rate ↔
      ∀ row, rate = some row → MeteredAlike row event := by
  rw [buildRow_cost]
  cases rate with
  | none => exact iff_of_true rfl fun row h => by cases h
  | some row =>
    have hrow : (∀ row', some row = some row' → MeteredAlike row' event) ↔
        MeteredAlike row event :=
      ⟨fun h => h row rfl, fun h row' he => Option.some.inj he ▸ h⟩
    rw [hrow, MeteredAlike]
    simp only [importedCost_eq, settledCost, Metered.priceCompletion]
    split_ifs with hper hstatus hmeter
    · rw [requestCost_agrees_iff]
      exact (and_iff_right (of_decide_eq_true hstatus)).symm
    · refine iff_of_false (importedCost_ne_none _ _) fun h => hstatus (decide_eq_true h.1)
    · refine iff_of_true ?_ hmeter
      rw [← importedCost_eq, buildUsage, Metered.calculateMeteredCost]
      cases Metered.priceBillableUsage row.rate.toPricing (Metered.billableUsage event.report) <;>
        rfl
    · exact iff_of_false (importedCost_ne_none _ _) hmeter

/-- **Imported usage is priced like settled usage exactly when** the lookup's legacy spelling is the
import's own or is not reached, and the rate found is one the token meters read, or a per-request
one a success's tokens come to. -/
theorem imported_priced_alike_iff (lists : PriceLists) (organizationId : Option ℕ)
    (importer : Importer) (events : List ExternalUsageEvent) {event : ExternalUsageEvent}
    (h : event ∈ events) : PricedAlike lists organizationId importer events event ↔
      SpelledAlike lists organizationId event ∧
        ∀ row, findModelPricing lists.tables (some event.provider) event.model event.timestamp
          organizationId = some row → MeteredAlike row event := by
  rw [PricedAlike, ← rates_agree_iff h]
  refine and_congr_right fun hrate => ?_
  rw [costs_agree_iff, hrate]

/-! ### One row in either unit -/

/-- The row of `a:b`, at 20000 USD per million of the unit. -/
def importedRow (unit : Metered.PriceUnit) : ModelPricing where
  modelKey := ['a', ':', 'b']
  effectiveAt := 0
  columns := { inputPricePerMillion := 20000, outputPricePerMillion := 0, unit := unit }

def importedLists (unit : Metered.PriceUnit) : PriceLists where
  overrides := []
  modelPricing := [importedRow unit]
  defaultPricingEnabled := false
  resolveDefault _ _ _ := none
  distinctStarts a ha := absurd ha List.not_mem_nil
  distinctVersions a ha b hb _ _ _ := by
    rw [List.mem_singleton.mp ha, List.mem_singleton.mp hb]

/-- A thousand tokens of `a:b`. -/
def importedEvent : ExternalUsageEvent where
  sourceEventId := ['e']
  timestamp := 1
  provider := ['a']
  model := ['b']
  inputTokens := 1000
  provider_ne := List.cons_ne_nil _ _

def sampleImporter : Importer := ⟨['s'], ['u'], none, 0⟩

theorem importedRate_request : importedRate (importedLists .request) none [importedEvent]
    importedEvent = some (importedRow .request) := by
  rfl

/-- Imported at 20 USD, a successful call settles at two cents. -/
theorem per_request_rate_billed_per_token :
    ¬ PricedAlike (importedLists .request) none sampleImporter [importedEvent] importedEvent := by
  rintro ⟨-, hcost⟩
  rw [importedRate_request] at hcost
  have himported : (buildRow sampleImporter importedEvent (some (importedRow .request))).map
      (·.cost) = .ok (some 20) := by
    decide +kernel
  have hsettled : settledCost importedEvent (some (importedRow .request)) =
      .ok (some (1 / 50)) := by
    decide +kernel
  rw [himported, hsettled] at hcost
  exact absurd (Option.some.inj (Except.ok.inj hcost)) (by norm_num)

theorem imported_priced_alike_token :
    PricedAlike (importedLists .token) none sampleImporter [importedEvent] importedEvent := by
  refine (imported_priced_alike_iff _ _ _ _ List.mem_cons_self).mpr ⟨.inl (by decide), ?_⟩
  have hfound : findModelPricing (importedLists .token).tables (some ['a']) ['b'] 1 none =
      some (importedRow .token) := by
    rfl
  intro row hrow
  obtain rfl := Option.some.inj (hfound.symm.trans hrow)
  rw [MeteredAlike, if_neg (by decide)]
  rfl

end Otari.Pricing

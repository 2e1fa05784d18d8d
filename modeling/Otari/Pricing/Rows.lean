import Otari.Pricing.MeteredPricing

/-!
# Pricing — Rows — the two price tables and the keys they are read under

`models/pricing.py`: the deployment price list, a series of versions per key, and above it an
organization's overrides, a half-open period each.  A model is looked up under `pricingKeyForms`,
the canonical `provider:model` and then the legacy `provider/model`.
-/

namespace Otari.Pricing

abbrev Key := List Char

/-- Whether a key is listed. -/
instance Key.decidableMem (key : Key) (keys : List Key) : Decidable (key ∈ keys) :=
  inferInstanceAs (Decidable (key ∈ keys))

abbrev Instant := ℤ

inductive PricingKind where
  | model
  | search
  | fetch
deriving DecidableEq

inductive Origin where
  | config
  | api
  | migration
  | seed
  | operator
deriving DecidableEq

/-- A threshold tier as the column stores it. -/
structure PricingTier where
  minInputTokens : ℤ
  inputPricePerMillion : Option ℚ
  outputPricePerMillion : Option ℚ
  cacheReadPricePerMillion : Option ℚ
  cacheWritePricePerMillion : Option ℚ
deriving DecidableEq

/-- The six rate columns of either table.  The `rates` block they are the text-token view of is a
second spelling of them that no lookup reads. -/
structure RateColumns where
  inputPricePerMillion : ℚ
  outputPricePerMillion : ℚ
  cacheReadPricePerMillion : Option ℚ := none
  cacheWritePricePerMillion : Option ℚ := none
  pricingTiers : List PricingTier := []
  unit : Metered.PriceUnit := .token
deriving DecidableEq

/-- A row of `model_pricing`: one version of a key's rate. -/
structure ModelPricing where
  kind : PricingKind := .model
  modelKey : Key
  effectiveAt : Instant
  columns : RateColumns
  origin : Option Origin := none
deriving DecidableEq

/-- A row of `organization_model_pricing`: a rate for a period, open ended for `none`. -/
structure OrganizationModelPricing where
  id : ℕ
  organizationId : ℕ
  kind : PricingKind := .model
  modelKey : Key
  columns : RateColumns
  origin : Option Origin
  effectiveFrom : Instant
  effectiveTo : Option Instant
deriving DecidableEq

def endsAfter (effectiveTo : Option Instant) (asOf : Instant) : Prop :=
  ∀ t ∈ effectiveTo, asOf < t

instance (effectiveTo : Option Instant) (asOf : Instant) : Decidable (endsAfter effectiveTo asOf) :=
  inferInstanceAs (Decidable (∀ t ∈ effectiveTo, asOf < t))

/-- The half-open period test: `effective_from` inclusive, `effective_to` exclusive. -/
def OrganizationModelPricing.covers (row : OrganizationModelPricing) (asOf : Instant) : Prop :=
  row.effectiveFrom ≤ asOf ∧ endsAfter row.effectiveTo asOf

instance (row : OrganizationModelPricing) (asOf : Instant) : Decidable (row.covers asOf) :=
  inferInstanceAs (Decidable (_ ∧ _))

/-- An override presented as the transient `ModelPricing` every caller reads. -/
def overrideAsModelPricing (override : OrganizationModelPricing) : ModelPricing where
  modelKey := override.modelKey
  effectiveAt := override.effectiveFrom
  columns := override.columns

/-! ### Keys -/

/-- `str.partition`: what stands before and after the first separator, when there is one. -/
def partition (separator : Char) (key : Key) : Key × Option Key :=
  (key.takeWhile (· ≠ separator), (key.dropWhile (· ≠ separator)).tail?)

/-- The stored key forms a lookup offers for a selector, canonical first. -/
def pricingKeyForms (modelKey : Key) : List Key :=
  match partition ':' modelKey with
  | (instanceName, some model) => [modelKey, instanceName ++ '/' :: model]
  | (_, none) => [modelKey]

/-- `f"{provider}:{model}"`. -/
def selectorKey (provider model : Key) : Key :=
  provider ++ ':' :: model

theorem partition_eq_some {separator : Char} {key pre post : Key}
    (h : partition separator key = (pre, some post)) : key = pre ++ separator :: post := by
  obtain ⟨hpre, hpost⟩ := Prod.mk.inj h
  have hsplit := List.takeWhile_append_dropWhile (p := (· ≠ separator)) (l := key)
  rw [hpre] at hsplit
  cases hd : key.dropWhile (· ≠ separator) with
  | nil => rw [hd] at hpost; cases hpost
  | cons c rest =>
    rw [hd] at hpost hsplit
    cases hpost
    have hc : c = separator := by
      have hhead := List.head_dropWhile_not (p := (· ≠ separator)) (l := key)
        (by rw [hd]; exact List.cons_ne_nil _ _)
      simp only [hd, List.head_cons] at hhead
      simpa using hhead
    rw [← hsplit, hc]

theorem pricingKeyForms_nodup (modelKey : Key) : (pricingKeyForms modelKey).Nodup := by
  unfold pricingKeyForms
  split
  · rename_i instanceName model h
    have hkey := partition_eq_some h
    rw [List.nodup_cons, List.mem_singleton]
    refine ⟨fun e => ?_, List.nodup_singleton _⟩
    rw [hkey, List.append_cancel_left_eq] at e
    cases e
  · exact List.nodup_singleton _

end Otari.Pricing

import Otari.Support.Index
import Otari.Pricing.Rows

/-!
# Pricing — Overrides — every reader of an organization's override

`services/pricing_service.py` and `repositories/pricing/organization_model_pricing_repository.py`:
the single-request SQL lookup (`findOrganizationOverride`), the two preloads
(`loadOrganizationOverrideIndex`, `applicableRows`) with the in-memory rule over what they hold
(`resolveOrganizationOverride`), and a request's primed prices (`RequestPrices`).

All of them are compared with one selection, `selectedRow`: under the first key form that has an
applicable row, the newest.  `override_readers_agree` assembles the comparisons.
`applicable_rows_lose_operator_row` is where they part: `applicableRows` keeps one row per key
whoever wrote it, so it is no index for a request the deployment paid for.
-/

namespace Otari.Pricing
open Select Index List

/-- `_KEY_CHUNK`. -/
def keyChunk : ℕ := 500

/-- `sorted(set(keys))`, as far as a read cares: every key once. -/
def keySet (keys : List Key) : List Key := keys.dedup

/-! ### The single-request lookup -/

/-- The row is of the payer's: any for the organization's own credential, the operator's for the
deployment's. -/
def OrganizationModelPricing.forPayer (row : OrganizationModelPricing) (operatorSetOnly : Bool) :
    Prop :=
  operatorSetOnly = true → row.origin = some .operator

instance (row : OrganizationModelPricing) (operatorSetOnly : Bool) :
    Decidable (row.forPayer operatorSetOnly) :=
  inferInstanceAs (Decidable (_ → _))

def OrganizationModelPricing.ofModel (row : OrganizationModelPricing) (organizationId : ℕ) : Prop :=
  row.organizationId = organizationId ∧ row.kind = .model

instance (row : OrganizationModelPricing) (organizationId : ℕ) :
    Decidable (row.ofModel organizationId) :=
  inferInstanceAs (Decidable (_ ∧ _))

/-- `ORDER BY CASE model_key … END, effective_from DESC`, the first row being the greatest. -/
def lookupOrder (modelKeys : List Key) (row : OrganizationModelPricing) : ℕᵒᵈ ×ₗ Instant :=
  toLex (OrderDual.toDual (modelKeys.idxOf row.modelKey), row.effectiveFrom)

/-- An organization's override for the first of `modelKeys` that has one. -/
def findOrganizationOverride (rows : List OrganizationModelPricing) (organizationId : ℕ)
    (modelKeys : List Key) (asOf : Instant) (operatorSetOnly : Bool := false) :
    Option OrganizationModelPricing :=
  firstMax (lookupOrder modelKeys) (rows.filter fun row =>
    row.ofModel organizationId ∧ row.modelKey ∈ modelKeys ∧ row.covers asOf ∧
      row.forPayer operatorSetOnly)

/-! ### In memory -/

/-- One override, normalized for in-memory resolution. -/
structure OverridePeriod where
  effectiveFrom : Instant
  effectiveTo : Option Instant
  pricing : ModelPricing
  origin : Option Origin
deriving DecidableEq

def overridePeriod (row : OrganizationModelPricing) : OverridePeriod where
  effectiveFrom := row.effectiveFrom
  effectiveTo := row.effectiveTo
  pricing := overrideAsModelPricing row
  origin := row.origin

/-- The override rows of one batch of keys, in the order the table gives them. -/
def selectOverrides (rows : List OrganizationModelPricing) (organizationId : ℕ)
    (chunk : List Key) : List OrganizationModelPricing :=
  rows.filter fun row => row.ofModel organizationId ∧ row.modelKey ∈ chunk

/-- Every override period this organization holds for `modelKeys`, by key, oldest first. -/
def loadOrganizationOverrideIndex (rows : List OrganizationModelPricing) (organizationId : ℕ)
    (modelKeys : List Key) : Key → List OverridePeriod :=
  let index := (batches keyChunk (keySet modelKeys)).foldl
    (fun index chunk =>
      (selectOverrides rows organizationId chunk).foldl (push (·.modelKey)) index)
    (fun _ => [])
  fun key => orderBy (·.effectiveFrom) ((index key).map overridePeriod)

def newestApplicable (asOf : Instant) (deploymentPaid : Bool) :
    List OverridePeriod → Option ModelPricing → Option ModelPricing
  | [], found => found
  | period :: periods, found =>
    if asOf < period.effectiveFrom then found
    else if deploymentPaid ∧ period.origin ≠ some .operator then
      newestApplicable asOf deploymentPaid periods found
    else if endsAfter period.effectiveTo asOf then
      newestApplicable asOf deploymentPaid periods (some period.pricing)
    else newestApplicable asOf deploymentPaid periods found

/-- The override applying at `asOf`, resolved from a preloaded index. -/
def resolveOrganizationOverride (index : Key → List OverridePeriod) (modelKeys : List Key)
    (asOf : Instant) (deploymentPaid : Bool := false) : Option ModelPricing :=
  modelKeys.findSome? fun key => newestApplicable asOf deploymentPaid (index key) none

/-! ### The batched reads -/

/-- The covering override rows of one batch, ordered by key and start. -/
def selectApplicable (rows : List OrganizationModelPricing) (organizationId : ℕ)
    (asOf : Instant) (chunk : List Key) : List OrganizationModelPricing :=
  orderBy (fun row => toLex (row.modelKey, row.effectiveFrom)) (rows.filter fun row =>
    row.ofModel organizationId ∧ row.modelKey ∈ chunk ∧ row.covers asOf)

/-- The organization's row covering `asOf` for each key that has one: the last row seen for a key
is its newest. -/
def applicableRows (rows : List OrganizationModelPricing) (organizationId : ℕ)
    (modelKeys : List Key) (asOf : Instant) : Key → Option OrganizationModelPricing :=
  (batches keyChunk (keySet modelKeys)).foldl
    (fun applicable chunk =>
      (selectApplicable rows organizationId asOf chunk).foldl (put (·.modelKey)) applicable)
    (fun _ => none)

/-- The versions of a model key in effect at `asOf`. -/
def versionsInEffect (rows : List ModelPricing) (modelKey : Key) (asOf : Instant) :
    List ModelPricing :=
  rows.filter fun row => row.kind = .model ∧ row.modelKey = modelKey ∧ row.effectiveAt ≤ asOf

/-- The newest version of `modelKey` in effect at `asOf`. -/
def findByModelKey (rows : List ModelPricing) (modelKey : Key) (asOf : Instant) :
    Option ModelPricing :=
  firstMax (·.effectiveAt) (versionsInEffect rows modelKey asOf)

/-- `SELECT model_key, MAX(effective_at) … GROUP BY model_key`, at one key. -/
def latestEffective (rows : List ModelPricing) (asOf : Instant) (modelKey : Key) :
    Option Instant :=
  maxOf ((versionsInEffect rows modelKey asOf).map (·.effectiveAt))

/-- The versions of one batch, joined to the newest start of their key. -/
def selectNewest (rows : List ModelPricing) (asOf : Instant) (chunk : List Key) :
    List ModelPricing :=
  rows.filter fun row => row.kind = .model ∧ row.modelKey ∈ chunk ∧
    latestEffective rows asOf row.modelKey = some row.effectiveAt

/-- The deployment price list's current version for each key that has one. -/
def deploymentRows (rows : List ModelPricing) (modelKeys : List Key) (asOf : Instant) :
    Key → Option ModelPricing :=
  (batches keyChunk (keySet modelKeys)).foldl
    (fun current chunk => (selectNewest rows asOf chunk).foldl (put (·.modelKey)) current)
    (fun _ => none)

/-! ### A request's prices -/

inductive PriceSource where
  | organization
  | deployment
  | defaults
deriving DecidableEq

/-- The entry of a source that answered. -/
inductive Reference where
  | override (id : ℕ)
  | stored (modelKey : Key)
  | dataset (entry : Key)
deriving DecidableEq

structure ResolvedPricing where
  pricing : ModelPricing
  source : PriceSource
  reference : Reference
  effectiveAt : Option Instant
deriving DecidableEq

/-- What the price ladder reads: the two tables, and the models.dev dataset with its switch. -/
structure PriceTables where
  overrides : List OrganizationModelPricing
  modelPricing : List ModelPricing
  defaultPricingEnabled : Bool
  defaultPricingMatch : Option Key → Key → Instant → Option (ModelPricing × Key)

def ofOverride (override : OrganizationModelPricing) : ResolvedPricing where
  pricing := overrideAsModelPricing override
  source := .organization
  reference := .override override.id
  effectiveAt := some (overrideAsModelPricing override).effectiveAt

def ofDeployment (row : ModelPricing) : ResolvedPricing where
  pricing := row
  source := .deployment
  reference := .stored row.modelKey
  effectiveAt := some row.effectiveAt

def ofDefault (matched : ModelPricing × Key) : ResolvedPricing where
  pricing := matched.1
  source := .defaults
  reference := .dataset matched.2
  effectiveAt := none

/-- The default rung, off when the deployment switched it off. -/
def defaultPricing (db : PriceTables) (provider : Option Key) (model : Key) (asOf : Instant) :
    Option ResolvedPricing :=
  if db.defaultPricingEnabled then (db.defaultPricingMatch provider model asOf).map ofDefault
  else none

/-- `f"{provider}:{model}" if provider else model`. -/
def modelKeyOf (provider : Option Key) (model : Key) : Key :=
  match provider with
  | some (c :: rest) => selectorKey (c :: rest) model
  | _ => model

/-- The stored half of the ladder: the override, then the deployment rows form by form. -/
def storedPricing (db : PriceTables) (organizationId : Option ℕ) (modelKey : Key)
    (asOf : Instant) (deploymentPaid : Bool) : Option ResolvedPricing :=
  let keyForms := pricingKeyForms modelKey
  let override := organizationId.bind fun organization =>
    findOrganizationOverride db.overrides organization keyForms asOf deploymentPaid
  (override.map ofOverride).or
    (keyForms.findSome? fun key => (findByModelKey db.modelPricing key asOf).map ofDeployment)

/-- `cached` is the process cache's live entry for the key, when it has one. -/
def resolveModelPricing (db : PriceTables) (provider : Option Key) (model : Key)
    (asOf : Instant) (organizationId : Option ℕ) (deploymentPaid : Bool)
    (cached : Option (Option ResolvedPricing) := none) : Option ResolvedPricing :=
  let stored := cached.getD
    (storedPricing db organizationId (modelKeyOf provider model) asOf deploymentPaid)
  stored.or (defaultPricing db provider model asOf)

/-- The rates one request has resolved, by provider, model and payer. -/
structure RequestPrices where
  organizationId : Option ℕ
  resolved : Option Key × Key × Bool → Option (Option ResolvedPricing) := fun _ => none

/-- What priming stores for one candidate, from the rows the batched reads returned. -/
def primedPrice (db : PriceTables) (now : Instant)
    (overrides : Key → Option OrganizationModelPricing) (stored : Key → Option ModelPricing)
    (provider model : Key) : Option ResolvedPricing :=
  let forms := pricingKeyForms (selectorKey provider model)
  match forms.findSome? overrides, forms.findSome? stored with
  | some override, _ => some (ofOverride override)
  | none, some row => some (ofDeployment row)
  | none, none => defaultPricing db (some provider) model now

/-- Resolve the candidates not yet resolved in two batched reads. -/
def RequestPrices.prime (prices : RequestPrices) (db : PriceTables) (now : Instant)
    (candidates : List (Key × Key)) : RequestPrices :=
  let pending := candidates.filter fun c => (prices.resolved (some c.1, c.2, false)).isNone
  let keys := pending.flatMap fun c => pricingKeyForms (selectorKey c.1 c.2)
  let overrides := match prices.organizationId with
    | some organization => applicableRows db.overrides organization keys now
    | none => fun _ => none
  let stored := deploymentRows db.modelPricing keys now
  { prices with
    resolved := pending.foldl
      (fun resolved c => Function.update resolved (some c.1, c.2, false)
        (some (primedPrice db now overrides stored c.1 c.2)))
      prices.resolved }

/-- The price for a model and payer, resolved once. -/
def RequestPrices.resolve (prices : RequestPrices) (db : PriceTables) (now : Instant)
    (provider : Option Key) (model : Key) (deploymentPaid : Bool := false)
    (cached : Option (Option ResolvedPricing) := none) :
    Option ResolvedPricing × RequestPrices :=
  match prices.resolved (provider, model, deploymentPaid) with
  | some resolved => (resolved, prices)
  | none =>
    let resolved :=
      resolveModelPricing db provider model now prices.organizationId deploymentPaid cached
    (resolved, { prices with
      resolved := Function.update prices.resolved (provider, model, deploymentPaid)
        (some resolved) })

/-! ### The selection they share -/

/-- The unique index: no two rows of one organization, kind and key begin at one instant. -/
def DistinctStarts (rows : List OrganizationModelPricing) : Prop :=
  ∀ a ∈ rows, ∀ b ∈ rows, a.organizationId = b.organizationId → a.kind = b.kind →
    a.modelKey = b.modelKey → a.effectiveFrom = b.effectiveFrom → a = b

def applicable (rows : List OrganizationModelPricing) (organizationId : ℕ) (asOf : Instant)
    (paid : Bool) (key : Key) : List OrganizationModelPricing :=
  rows.filter fun row => row.ofModel organizationId ∧ row.modelKey = key ∧ row.covers asOf ∧
    row.forPayer paid

/-- **The selection.**  Under the first key with an applicable row, the newest. -/
def selectedRow (rows : List OrganizationModelPricing) (organizationId : ℕ)
    (modelKeys : List Key) (asOf : Instant) (paid : Bool) : Option OrganizationModelPricing :=
  modelKeys.findSome? fun key =>
    firstMax (·.effectiveFrom) (applicable rows organizationId asOf paid key)

variable {rows : List OrganizationModelPricing} {organizationId : ℕ} {asOf : Instant}
    {paid : Bool} {key : Key}

theorem mem_applicable {row : OrganizationModelPricing} :
    row ∈ applicable rows organizationId asOf paid key ↔
      row ∈ rows ∧ row.ofModel organizationId ∧ row.modelKey = key ∧ row.covers asOf ∧
        row.forPayer paid := by
  simp [applicable]

theorem DistinctStarts.eq_of_start (h : DistinctStarts rows)
    {a b : OrganizationModelPricing} (ha : a ∈ rows) (hb : b ∈ rows)
    (hao : a.ofModel organizationId) (hbo : b.ofModel organizationId)
    (hkey : a.modelKey = b.modelKey) (hfrom : a.effectiveFrom = b.effectiveFrom) : a = b :=
  h a ha b hb (hao.1.trans hbo.1.symm) (hao.2.trans hbo.2.symm) hkey hfrom

theorem applicable_inj (h : DistinctStarts rows) :
    ∀ a ∈ applicable rows organizationId asOf paid key,
      ∀ b ∈ applicable rows organizationId asOf paid key,
        a.effectiveFrom = b.effectiveFrom → a = b := by
  intro a ha b hb hfrom
  obtain ⟨ha, hao, hak, -⟩ := mem_applicable.mp ha
  obtain ⟨hb, hbo, hbk, -⟩ := mem_applicable.mp hb
  exact h.eq_of_start ha hb hao hbo (hak.trans hbk.symm) hfrom

variable {modelKeys : List Key}

theorem findOrganizationOverride_eq (h : DistinctStarts rows)
    (organizationId : ℕ) (hnd : modelKeys.Nodup) (asOf : Instant) (paid : Bool) :
    findOrganizationOverride rows organizationId modelKeys asOf paid =
      selectedRow rows organizationId modelKeys asOf paid := by
  unfold findOrganizationOverride
  cases hs : selectedRow rows organizationId modelKeys asOf paid with
  | none =>
    rw [firstMax_eq_none, filter_eq_nil_iff]
    intro row hrow
    simp only [decide_eq_true_eq]
    rintro ⟨ho, hk, hc, hp⟩
    have := List.findSome?_eq_none_iff.mp hs row.modelKey hk
    rw [firstMax_eq_none] at this
    have hmem : row ∈ applicable rows organizationId asOf paid row.modelKey :=
      mem_applicable.mpr ⟨hrow, ho, rfl, hc, hp⟩
    rw [this] at hmem
    cases hmem
  | some sel =>
    obtain ⟨before, key, after, rfl, hsel, hbefore⟩ := List.findSome?_eq_some_iff.mp hs
    obtain ⟨hrow, ho, hk, hc, hp⟩ := mem_applicable.mp (firstMax_mem hsel)
    refine firstMax_eq_some ?_ ?_
    · simp only [mem_filter, decide_eq_true_eq]
      exact ⟨hrow, ho, hk ▸ by simp, hc, hp⟩
    · intro row hmem hne
      simp only [mem_filter, decide_eq_true_eq] at hmem
      obtain ⟨hrow', ho', hk', hc', hp'⟩ := hmem
      have hmine : row ∈ applicable rows organizationId asOf paid row.modelKey :=
        mem_applicable.mpr ⟨hrow', ho', rfl, hc', hp'⟩
      -- a key before the selected one has no applicable row
      have hnot : row.modelKey ∉ before := fun hmem => by
        have := firstMax_eq_none.mp (hbefore row.modelKey hmem)
        rw [this] at hmine
        cases hmine
      have hkb : key ∉ before := fun hmem =>
        (nodup_append.mp hnd).2.2 key hmem key mem_cons_self rfl
      unfold lookupOrder
      rw [Prod.Lex.toLex_lt_toLex]
      by_cases hsame : row.modelKey = key
      · refine .inr ⟨by rw [hsame, hk], ?_⟩
        have hle : row.effectiveFrom ≤ sel.effectiveFrom := le_firstMax hsel (hsame ▸ hmine)
        refine lt_of_le_of_ne hle fun e => hne ?_
        exact h.eq_of_start hrow' hrow ho' ho (hsame.trans hk.symm) e
      · refine .inl (OrderDual.toDual_lt_toDual.mpr ?_)
        rw [hk, idxOf_append_of_notMem hkb, idxOf_append_of_notMem hnot,
          idxOf_cons_self, idxOf_cons_ne _ (Ne.symm hsame)]
        omega

/-! ### The preloads -/

/-- The period applies at `asOf` for the payer. -/
def OverridePeriod.applies (asOf : Instant) (paid : Bool) (period : OverridePeriod) : Bool :=
  period.effectiveFrom ≤ asOf ∧ endsAfter period.effectiveTo asOf ∧
    (paid = true → period.origin = some .operator)

theorem OverridePeriod.applies_iff {period : OverridePeriod} :
    period.applies asOf paid = true ↔ period.effectiveFrom ≤ asOf ∧
      endsAfter period.effectiveTo asOf ∧ (paid = true → period.origin = some .operator) := by
  simp only [applies, decide_eq_true_eq]

theorem newestApplicable_eq {periods : List OverridePeriod}
    (hs : periods.Pairwise fun a b => a.effectiveFrom ≤ b.effectiveFrom)
    (found : Option ModelPricing) : newestApplicable asOf paid periods found =
      ((periods.filter (·.applies asOf paid)).getLast?.map (·.pricing)).or found := by
  induction periods generalizing found with
  | nil => rfl
  | cons period periods ih =>
    obtain ⟨hfirst, hs⟩ := pairwise_cons.mp hs
    have ih := ih hs
    unfold newestApplicable
    by_cases hstart : asOf < period.effectiveFrom
    · -- every later period starts later still, so the break loses nothing
      have hnone : (period :: periods).filter (·.applies asOf paid) = [] := by
        rw [filter_eq_nil_iff]
        intro p hp happ
        have hle := (OverridePeriod.applies_iff.mp happ).1
        rcases mem_cons.mp hp with rfl | hp
        · exact absurd hle (not_le.mpr hstart)
        · exact absurd ((hfirst p hp).trans hle) (not_le.mpr hstart)
      rw [if_pos hstart, hnone]
      rfl
    · rw [if_neg hstart]
      by_cases happ : period.applies asOf paid = true
      · obtain ⟨-, hend, horigin⟩ := OverridePeriod.applies_iff.mp happ
        rw [if_neg (fun h => h.2 (horigin h.1)), if_pos hend, ih, filter_cons_of_pos happ,
          List.getLast?_cons]
        cases (periods.filter (·.applies asOf paid)).getLast? <;> rfl
      · rw [filter_cons_of_neg happ, ih, ih]
        by_cases hpaid : paid = true ∧ period.origin ≠ some .operator
        · rw [if_pos hpaid]
        · have hend : ¬ endsAfter period.effectiveTo asOf := fun hend =>
            happ (OverridePeriod.applies_iff.mpr ⟨not_lt.mp hstart, hend, fun hp =>
              not_not.mp fun ho => hpaid ⟨hp, ho⟩⟩)
          rw [if_neg hpaid, if_neg hend]

/-- Resolving over the periods of one key's rows, whatever rows of the key they are, finds the
newest applicable of them. -/
theorem newestApplicable_rows
    (hinj : ∀ a ∈ rows, ∀ b ∈ rows, a.effectiveFrom = b.effectiveFrom → a = b) :
    newestApplicable asOf paid (orderBy (·.effectiveFrom) (rows.map overridePeriod)) none =
      (firstMax (·.effectiveFrom) (rows.filter fun row => row.covers asOf ∧ row.forPayer paid)).map
        overrideAsModelPricing := by
  have hmem : ∀ p, p ∈ (orderBy (·.effectiveFrom) (rows.map overridePeriod)).filter
        (·.applies asOf paid) ↔
      p ∈ (rows.filter fun row => row.covers asOf ∧ row.forPayer paid).map overridePeriod := by
    intro p
    simp only [mem_filter, mem_orderBy, mem_map, decide_eq_true_eq,
      OverridePeriod.applies_iff]
    constructor
    · rintro ⟨⟨row, hrow, rfl⟩, hle, hend, ho⟩
      exact ⟨row, ⟨hrow, ⟨hle, hend⟩, ho⟩, rfl⟩
    · rintro ⟨row, ⟨hrow, ⟨hle, hend⟩, ho⟩, rfl⟩
      exact ⟨⟨row, hrow, rfl⟩, hle, hend, ho⟩
  have hpinj : ∀ p ∈ (orderBy (·.effectiveFrom) (rows.map overridePeriod)).filter
        (·.applies asOf paid),
      ∀ q ∈ (orderBy (·.effectiveFrom) (rows.map overridePeriod)).filter (·.applies asOf paid),
        p.effectiveFrom = q.effectiveFrom → p = q := by
    intro p hp q hq hpq
    obtain ⟨a, ha, rfl⟩ := mem_map.mp ((hmem p).mp hp)
    obtain ⟨b, hb, rfl⟩ := mem_map.mp ((hmem q).mp hq)
    exact congrArg overridePeriod (hinj a (mem_of_mem_filter ha) b
      (mem_of_mem_filter hb) hpq)
  rw [newestApplicable_eq (pairwise_orderBy _ _), Option.or_none,
    getLast?_eq_firstMax ((pairwise_orderBy _ _).filter _) hpinj, firstMax_congr hmem hpinj,
    firstMax_map, Option.map_map]
  rfl

variable {keys : List Key}

theorem mem_keySet : key ∈ keySet keys ↔ key ∈ keys :=
  mem_dedup

variable {α : Type*}

theorem scan_batched (keyOf : α → Key) (read : List Key → List α)
    (hread : ∀ chunk, ∀ row ∈ read chunk, keyOf row ∈ chunk)
    (hk : key ∈ keys) : ∃ chunk, key ∈ chunk ∧
      scan keyOf key ((batches keyChunk (keySet keys)).flatMap read) =
        scan keyOf key (read chunk) := by
  have hflat : (batches keyChunk (keySet keys)).flatten = keySet keys :=
    flatten_batches (by decide) _
  have hnd : (batches keyChunk (keySet keys)).flatten.Nodup := by
    rw [hflat]; exact nodup_dedup keys
  have hk' : key ∈ (batches keyChunk (keySet keys)).flatten := by
    rw [hflat]; exact mem_keySet.mpr hk
  obtain ⟨chunk, hc, hkc⟩ := mem_flatten.mp hk'
  exact ⟨chunk, hkc, scan_batches hnd (fun b _ => hread b) hc hkc⟩

theorem foldl_batched_put {keyOf : α → Key} {read : List Key → List α}
    (bs : List (List Key)) (key : Key) :
    bs.foldl (fun d chunk => (read chunk).foldl (put keyOf) d) (fun _ => none) key =
      (scan keyOf key (bs.flatMap read)).getLast? := by
  rw [← foldl_flatMap, foldl_put, Option.or_none]

theorem foldl_batched_push {keyOf : α → Key} {read : List Key → List α}
    (bs : List (List Key)) (key : Key) :
    bs.foldl (fun d chunk => (read chunk).foldl (push keyOf) d) (fun _ => []) key =
      scan keyOf key (bs.flatMap read) := by
  rw [← foldl_flatMap, foldl_push, nil_append]

theorem resolve_index (h : DistinctStarts rows)
    (organizationId : ℕ) (hsub : ∀ k ∈ modelKeys, k ∈ keys) (asOf : Instant) (paid : Bool) :
    resolveOrganizationOverride (loadOrganizationOverrideIndex rows organizationId keys) modelKeys
        asOf paid =
      (selectedRow rows organizationId modelKeys asOf paid).map overrideAsModelPricing := by
  unfold resolveOrganizationOverride selectedRow
  rw [map_findSome?]
  refine findSome?_congr fun key hkey => ?_
  obtain ⟨chunk, hc, hscan⟩ := scan_batched (·.modelKey) (selectOverrides rows organizationId)
    (fun chunk row hrow => by simp [selectOverrides] at hrow; exact hrow.2.2) (hsub key hkey)
  have hmem : ∀ row, row ∈ scan (·.modelKey) key (selectOverrides rows organizationId chunk) ↔
      row ∈ rows ∧ row.ofModel organizationId ∧ row.modelKey = key := by
    intro row
    simp only [scan, selectOverrides, mem_filter, decide_eq_true_eq]
    exact ⟨fun h => ⟨h.1.1, h.1.2.1, h.2⟩, fun h => ⟨⟨h.1, h.2.1, h.2.2 ▸ hc⟩, h.2.2⟩⟩
  unfold loadOrganizationOverrideIndex
  rw [foldl_batched_push, hscan, newestApplicable_rows]
  · congr 1
    refine firstMax_congr (fun row => ?_) ?_
    · simp only [mem_filter, hmem, mem_applicable, decide_eq_true_eq]
      tauto
    · intro a ha b hb hab
      obtain ⟨ha, hao, hak⟩ := (hmem a).mp (mem_of_mem_filter ha)
      obtain ⟨hb, hbo, hbk⟩ := (hmem b).mp (mem_of_mem_filter hb)
      exact h.eq_of_start ha hb hao hbo (hak.trans hbk.symm) hab
  · intro a ha b hb hab
    obtain ⟨ha, hao, hak⟩ := (hmem a).mp ha
    obtain ⟨hb, hbo, hbk⟩ := (hmem b).mp hb
    exact h.eq_of_start ha hb hao hbo (hak.trans hbk.symm) hab

theorem applicableRows_eq (h : DistinctStarts rows)
    (organizationId : ℕ) (hk : key ∈ keys) (asOf : Instant) :
    applicableRows rows organizationId keys asOf key =
      firstMax (·.effectiveFrom) (applicable rows organizationId asOf false key) := by
  obtain ⟨chunk, hc, hscan⟩ := scan_batched (·.modelKey) (selectApplicable rows organizationId asOf)
    (fun chunk row hrow => by simp [selectApplicable] at hrow; exact hrow.2.2.1) hk
  have hmem : ∀ row, row ∈ scan (·.modelKey) key (selectApplicable rows organizationId asOf chunk)
      ↔ row ∈ applicable rows organizationId asOf false key := by
    intro row
    simp only [scan, selectApplicable, mem_filter, mem_orderBy, decide_eq_true_eq,
      mem_applicable, OrganizationModelPricing.forPayer]
    constructor
    · rintro ⟨⟨hr, ho, -, hcov⟩, hk⟩
      exact ⟨hr, ho, hk, hcov, fun e => by cases e⟩
    · rintro ⟨hr, ho, hk, hcov, -⟩
      exact ⟨⟨hr, ho, hk ▸ hc, hcov⟩, hk⟩
  have hsorted : (scan (·.modelKey) key (selectApplicable rows organizationId asOf chunk)).Pairwise
      fun a b => a.effectiveFrom ≤ b.effectiveFrom := by
    refine List.Pairwise.imp_of_mem ?_ ((pairwise_orderBy _ _).filter _)
    intro a b ha hb hab
    have hka : a.modelKey = key := by simpa [scan] using (mem_filter.mp ha).2
    have hkb : b.modelKey = key := by simpa [scan] using (mem_filter.mp hb).2
    rcases Prod.Lex.toLex_le_toLex.mp hab with hlt | ⟨-, hle⟩
    · exact absurd hlt (by simp [hka, hkb])
    · exact hle
  have hinj := fun a ha b hb => applicable_inj h a ((hmem a).mp ha) b ((hmem b).mp hb)
  unfold applicableRows
  rw [foldl_batched_put, hscan, getLast?_eq_firstMax hsorted hinj, firstMax_congr hmem hinj]

/-- The index a caller holding only `applicableRows` can resolve over. -/
def periodsOf (applicable : Key → Option OrganizationModelPricing) (key : Key) :
    List OverridePeriod :=
  ((applicable key).map overridePeriod).toList

theorem newestApplicable_covering {row : OrganizationModelPricing}
    (hcov : row.covers asOf) (paid : Bool) : newestApplicable asOf paid [overridePeriod row] none =
      if row.forPayer paid then some (overrideAsModelPricing row) else none := by
  have happ : (overridePeriod row).applies asOf paid = true ↔ row.forPayer paid :=
    OverridePeriod.applies_iff.trans ⟨fun h => h.2.2, fun h => ⟨hcov.1, hcov.2, h⟩⟩
  rw [newestApplicable_eq (pairwise_singleton _ _), Option.or_none]
  by_cases hp : row.forPayer paid
  · rw [filter_cons_of_pos (happ.mpr hp), if_pos hp]
    rfl
  · rw [filter_cons_of_neg (mt happ.mp hp), if_neg hp]
    rfl

/-- No two periods the organization holds for one of these keys cover the instant. -/
def OnePeriodPerKey (rows : List OrganizationModelPricing) (organizationId : ℕ)
    (modelKeys : List Key) (asOf : Instant) : Prop :=
  ∀ a ∈ rows, ∀ b ∈ rows, a.ofModel organizationId → b.ofModel organizationId →
    a.modelKey ∈ modelKeys → a.modelKey = b.modelKey → a.covers asOf → b.covers asOf → a = b

/-- Resolving over `applicableRows` is the lookup for the organization's own payer, and for the
deployment's where no key has two periods at the instant. -/
theorem resolve_applicableRows (h : DistinctStarts rows)
    (organizationId : ℕ) (hsub : ∀ k ∈ modelKeys, k ∈ keys) (asOf : Instant)
    (hone : paid = true → OnePeriodPerKey rows organizationId modelKeys asOf) :
    resolveOrganizationOverride (periodsOf (applicableRows rows organizationId keys asOf)) modelKeys
        asOf paid =
      (selectedRow rows organizationId modelKeys asOf paid).map overrideAsModelPricing := by
  unfold resolveOrganizationOverride selectedRow
  rw [map_findSome?]
  refine findSome?_congr fun key hkey => ?_
  rw [Function.comp_apply, periodsOf, applicableRows_eq h organizationId (hsub key hkey)]
  cases hnew : firstMax (·.effectiveFrom) (applicable rows organizationId asOf false key) with
  | none =>
    have hall : applicable rows organizationId asOf paid key = [] := by
      rw [firstMax_eq_none] at hnew
      refine eq_nil_iff_forall_not_mem.mpr fun row hrow => ?_
      obtain ⟨hr, ho, hk, hc, -⟩ := mem_applicable.mp hrow
      have hmem : row ∈ applicable rows organizationId asOf false key :=
        mem_applicable.mpr ⟨hr, ho, hk, hc, fun e => by cases e⟩
      rw [hnew] at hmem
      cases hmem
    rw [hall]
    rfl
  | some row =>
    obtain ⟨hr, ho, hk, hc, -⟩ := mem_applicable.mp (firstMax_mem hnew)
    rw [show ((some row).map overridePeriod).toList = [overridePeriod row] from rfl,
      newestApplicable_covering hc]
    cases paid with
    | false =>
      have hp : row.forPayer false := fun e => by cases e
      rw [if_pos hp, hnew]
      rfl
    | true =>
      have honly : ∀ row' ∈ applicable rows organizationId asOf true key, row' = row := by
        intro row' hrow'
        obtain ⟨hr', ho', hk', hc', -⟩ := mem_applicable.mp hrow'
        exact hone rfl row' hr' row hr ho' ho (hk' ▸ hkey) (hk'.trans hk.symm) hc' hc
      by_cases hp : row.forPayer true
      · rw [if_pos hp, firstMax_eq_some (mem_applicable.mpr ⟨hr, ho, hk, hc, hp⟩)
          fun b hb hne => absurd (honly b hb) hne]
        rfl
      · have hall : applicable rows organizationId asOf true key = [] := by
          refine eq_nil_iff_forall_not_mem.mpr fun row' hrow' => hp ?_
          exact honly row' hrow' ▸ (mem_applicable.mp hrow').2.2.2.2
        rw [if_neg hp, hall]
        rfl

/-! ### Primed prices -/

def ResolvedPricing.override? (resolved : ResolvedPricing) : Option ModelPricing :=
  if resolved.source = .organization then some resolved.pricing else none

theorem defaultPricing_override? (db : PriceTables) (provider : Option Key) (model : Key)
    (asOf : Instant) :
    (defaultPricing db provider model asOf).bind ResolvedPricing.override? = none := by
  unfold defaultPricing
  split
  · cases db.defaultPricingMatch provider model asOf <;> rfl
  · rfl

theorem RequestPrices.prime_resolved (db : PriceTables) (organizationId : ℕ) (now : Instant)
    {candidates : List (Key × Key)} {provider model : Key} (hmem : (provider, model) ∈ candidates) :
    ∃ keys : List Key, (∀ k ∈ pricingKeyForms (selectorKey provider model), k ∈ keys) ∧
      (RequestPrices.prime { organizationId := some organizationId } db now candidates).resolved
          (some provider, model, false) =
        some (primedPrice db now (applicableRows db.overrides organizationId keys now)
          (deploymentRows db.modelPricing keys now) provider model) ∧
      (RequestPrices.prime { organizationId := some organizationId } db now candidates).resolved
        (some provider, model, true) = none := by
  have hpending : candidates.filter (fun c => ((fun _ => none : Option Key × Key × Bool →
      Option (Option ResolvedPricing)) (some c.1, c.2, false)).isNone) = candidates :=
    filter_eq_self.mpr fun _ _ => rfl
  refine ⟨candidates.flatMap fun c => pricingKeyForms (selectorKey c.1 c.2),
    fun k hk => mem_flatMap.mpr ⟨_, hmem, hk⟩, ?_, ?_⟩
  · unfold RequestPrices.prime
    rw [hpending]
    exact foldl_update_mem (f := fun c : Key × Key => (some c.1, c.2, false))
      (fun a b e => by
        obtain ⟨a₁, a₂⟩ := a
        obtain ⟨b₁, b₂⟩ := b
        simpa using e) _ _ hmem
  · unfold RequestPrices.prime
    rw [hpending]
    exact foldl_update_of_ne (f := fun c : Key × Key => (some c.1, c.2, false)) _ _
      fun c _ e => by simp at e

theorem primedPrice_override? {db : PriceTables} (h : DistinctStarts db.overrides)
    (organizationId : ℕ) (now : Instant) {provider model : Key}
    (hsub : ∀ k ∈ pricingKeyForms (selectorKey provider model), k ∈ keys)
    (stored : Key → Option ModelPricing) :
    (primedPrice db now (applicableRows db.overrides organizationId keys now) stored provider
        model).bind ResolvedPricing.override? =
      (selectedRow db.overrides organizationId (pricingKeyForms (selectorKey provider model)) now
        false).map overrideAsModelPricing := by
  have hsel : (pricingKeyForms (selectorKey provider model)).findSome?
        (applicableRows db.overrides organizationId keys now) =
      selectedRow db.overrides organizationId (pricingKeyForms (selectorKey provider model)) now
        false :=
    findSome?_congr fun key hkey => applicableRows_eq h organizationId (hsub key hkey) now
  unfold primedPrice
  dsimp only
  rw [hsel]
  cases selectedRow db.overrides organizationId (pricingKeyForms (selectorKey provider model)) now
    false with
  | some row => rfl
  | none =>
    cases (pricingKeyForms (selectorKey provider model)).findSome? stored with
    | some row => rfl
    | none => exact defaultPricing_override? db _ _ _

/-- A stored price read at this instant: no process cache entry, or one this read filled. -/
def CacheCurrent (db : PriceTables) (organizationId : Option ℕ) (modelKey : Key) (asOf : Instant)
    (deploymentPaid : Bool) (cached : Option (Option ResolvedPricing)) : Prop :=
  ∀ entry ∈ cached, entry = storedPricing db organizationId modelKey asOf deploymentPaid

theorem resolveModelPricing_override? {db : PriceTables} (h : DistinctStarts db.overrides)
    (organizationId : ℕ) (asOf : Instant) {provider model : Key} (hp : provider ≠ [])
    {cached : Option (Option ResolvedPricing)}
    (hcache : CacheCurrent db (some organizationId) (selectorKey provider model) asOf paid cached) :
    (resolveModelPricing db (some provider) model asOf (some organizationId) paid cached).bind
        ResolvedPricing.override? =
      (selectedRow db.overrides organizationId (pricingKeyForms (selectorKey provider model)) asOf
        paid).map overrideAsModelPricing := by
  have hkey : modelKeyOf (some provider) model = selectorKey provider model := by
    cases provider with
    | nil => exact absurd rfl hp
    | cons c rest => rfl
  have hstored : cached.getD (storedPricing db (some organizationId)
      (selectorKey provider model) asOf paid) =
      storedPricing db (some organizationId) (selectorKey provider model) asOf paid := by
    cases cached with
    | none => rfl
    | some entry => exact hcache entry rfl
  unfold resolveModelPricing
  rw [hkey, hstored]
  unfold storedPricing
  dsimp only [Option.bind_some]
  rw [findOrganizationOverride_eq h organizationId (pricingKeyForms_nodup _)]
  cases selectedRow db.overrides organizationId (pricingKeyForms (selectorKey provider model)) asOf
    paid with
  | some row => rfl
  | none =>
    rw [Option.map_none, Option.none_or, Option.map_none]
    cases hd : (pricingKeyForms (selectorKey provider model)).findSome? fun key =>
        (findByModelKey db.modelPricing key asOf).map ofDeployment with
    | none => exact defaultPricing_override? db _ _ _
    | some resolved =>
      obtain ⟨key, -, hkey⟩ := exists_of_findSome?_eq_some hd
      obtain ⟨row, -, rfl⟩ := Option.map_eq_some_iff.mp hkey
      rfl

/-- **The readers of an override agree.**  Over any rows with distinct starts, for any instant:
the SQL lookup, the rule over the loaded index, and a request's price after priming, for either
payer; and the rule over `applicableRows` for the organization's own payer, as for the deployment's
where no key has two periods at the instant. -/
theorem override_readers_agree (db : PriceTables) (h : DistinctStarts db.overrides)
    (organizationId : ℕ) (modelKey : Key) (asOf : Instant) :
    (∀ keys : List Key, (∀ k ∈ pricingKeyForms modelKey, k ∈ keys) →
      (∀ paid, resolveOrganizationOverride
          (loadOrganizationOverrideIndex db.overrides organizationId keys)
          (pricingKeyForms modelKey) asOf paid =
        (findOrganizationOverride db.overrides organizationId (pricingKeyForms modelKey) asOf
          paid).map overrideAsModelPricing) ∧ ∀ paid, (paid = true →
          OnePeriodPerKey db.overrides organizationId (pricingKeyForms modelKey) asOf) →
        resolveOrganizationOverride
            (periodsOf (applicableRows db.overrides organizationId keys asOf))
            (pricingKeyForms modelKey) asOf paid =
          (findOrganizationOverride db.overrides organizationId (pricingKeyForms modelKey) asOf
            paid).map overrideAsModelPricing) ∧
    ∀ (provider model : Key), modelKey = selectorKey provider model → provider ≠ [] →
      ∀ candidates : List (Key × Key), (provider, model) ∈ candidates →
      ∀ paid cached, CacheCurrent db (some organizationId) modelKey asOf paid cached →
        ((RequestPrices.prime { organizationId := some organizationId } db asOf
            candidates).resolve db asOf (some provider) model paid cached).1.bind
              ResolvedPricing.override? =
          (findOrganizationOverride db.overrides organizationId (pricingKeyForms modelKey) asOf
            paid).map overrideAsModelPricing := by
  refine ⟨fun keys hsub => ⟨fun paid => ?_, fun paid hone => ?_⟩, ?_⟩
  · rw [resolve_index h organizationId hsub,
      findOrganizationOverride_eq h organizationId (pricingKeyForms_nodup _)]
  · rw [resolve_applicableRows h organizationId hsub asOf hone,
      findOrganizationOverride_eq h organizationId (pricingKeyForms_nodup _)]
  · rintro provider model rfl hp candidates hmem paid cached hcache
    obtain ⟨keys, hsub, hfalse, htrue⟩ :=
      RequestPrices.prime_resolved db organizationId asOf hmem
    rw [findOrganizationOverride_eq h organizationId (pricingKeyForms_nodup _)]
    unfold RequestPrices.resolve
    cases paid with
    | false =>
      rw [hfalse]
      exact primedPrice_override? h organizationId asOf hsub _
    | true =>
      rw [htrue]
      exact resolveModelPricing_override? h organizationId asOf hp hcache

/-- One key priced twice from different days: by the operator, then by the organization. -/
def twoPayers : List OrganizationModelPricing :=
  [{ id := 1, organizationId := 0, modelKey := ['a', ':', 'b'],
     columns := { inputPricePerMillion := 3, outputPricePerMillion := 15 },
     origin := some .operator, effectiveFrom := 0, effectiveTo := none },
   { id := 2, organizationId := 0, modelKey := ['a', ':', 'b'],
     columns := { inputPricePerMillion := 0, outputPricePerMillion := 0 },
     origin := some .api, effectiveFrom := 5, effectiveTo := none }]

/-- For the deployment's payer the lookup finds the operator's row, and `applicableRows` has only
the organization's newer one. -/
theorem applicableRows_lose_operator_row : DistinctStarts twoPayers ∧
      (findOrganizationOverride twoPayers 0 (pricingKeyForms ['a', ':', 'b']) 10 true).map
          overrideAsModelPricing ≠ resolveOrganizationOverride
          (periodsOf (applicableRows twoPayers 0 (pricingKeyForms ['a', ':', 'b']) 10))
          (pricingKeyForms ['a', ':', 'b']) 10 true := by
  unfold DistinctStarts
  decide

theorem override_readers_agree_two_payers : resolveOrganizationOverride
        (loadOrganizationOverrideIndex twoPayers 0 (pricingKeyForms ['a', ':', 'b']))
        (pricingKeyForms ['a', ':', 'b']) 10 true =
      (findOrganizationOverride twoPayers 0 (pricingKeyForms ['a', ':', 'b']) 10 true).map
        overrideAsModelPricing ∧ resolveOrganizationOverride
        (periodsOf (applicableRows twoPayers 0 (pricingKeyForms ['a', ':', 'b']) 10))
        (pricingKeyForms ['a', ':', 'b']) 10 false =
      (findOrganizationOverride twoPayers 0 (pricingKeyForms ['a', ':', 'b']) 10 false).map
        overrideAsModelPricing ∧
    ((RequestPrices.prime { organizationId := some 0 } ⟨twoPayers, [], false, fun _ _ _ => none⟩ 10
        [(['a'], ['b'])]).resolve ⟨twoPayers, [], false, fun _ _ _ => none⟩ 10 (some ['a']) ['b']
          true).1.bind ResolvedPricing.override? =
      (findOrganizationOverride twoPayers 0 (pricingKeyForms ['a', ':', 'b']) 10 true).map
        overrideAsModelPricing := by
  have hd : DistinctStarts twoPayers := by unfold DistinctStarts; decide
  have h := override_readers_agree ⟨twoPayers, [], false, fun _ _ _ => none⟩ hd 0
    ['a', ':', 'b'] 10
  exact ⟨(h.1 _ fun _ hk => hk).1 true, (h.1 _ fun _ hk => hk).2 false (fun e => by cases e),
    h.2 ['a'] ['b'] rfl (by decide) [(['a'], ['b'])] List.mem_cons_self true none
      fun _ he => by cases he⟩

end Otari.Pricing

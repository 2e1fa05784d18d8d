import Otari.Pricing.CurrentRates
import Otari.Pricing.OrganizationPricing

/-!
# Pricing — RatesPage — a page of rates against one request

`services/organization_pricing_service.py`, `rates_in_effect`: the rungs of the ladder for many keys
at once, compared with `resolveModelPricing`, which bills one request.

The page reads a stored row under the key as it is spelled, the request under every
`pricingKeyForms`; the page's last rung asks the dataset whatever the switch says.  `rates_page_iff`
is when the two answers are one: `OnPage`, the rung that answers the request is one the page reads.
`legacy_rate_off_page` is a row under the legacy spelling, billed and not on the page.
-/

namespace Otari.Pricing.Page
open Select Index
open List

/-! ### The page -/

/-- One key of `_resolve_defaults`: what stands before the colon, and after it. -/
def defaultModelPricing (db : PriceTables) (modelKey : Key) (asOf : Instant) :
    Option ModelPricing :=
  let provider := (partition ':' modelKey).1
  let model := (partition ':' modelKey).2.getD []
  (db.defaultPricingMatch (if provider = [] then none else some provider)
    (if model = [] then modelKey else model) asOf).map Prod.fst

/-- `_resolve_defaults`: the dataset's rate for each key that has one. -/
def resolveDefaults (db : PriceTables) (modelKeys : List Key) (asOf : Instant) :
    Key → Option ModelPricing :=
  modelKeys.foldl
    (fun resolved modelKey =>
      match defaultModelPricing db modelKey asOf with
      | some default => Function.update resolved modelKey (some default)
      | none => resolved)
    (fun _ => none)

/-- The dataset's own rates, not gated on the switch. -/
def communityDefaults (db : PriceTables) (modelKeys : List Key) (asOf : Instant) :
    Key → Option ModelPricing :=
  resolveDefaults db (keySet modelKeys) asOf

/-- One turn of the loop over the keys: the stored rung that answers, or one more unpriced key. -/
def storedRung (stored : Key → Option OrganizationModelPricing)
    (deployment : Key → Option ModelPricing)
    (found : (Key → Option EffectiveRate) × List Key) (modelKey : Key) :
    (Key → Option EffectiveRate) × List Key :=
  match stored modelKey, deployment modelKey with
  | some row, _ =>
    (Function.update found.1 modelKey
      (some ⟨.organization, overrideAsModelPricing row, some row⟩), found.2)
  | none, some row =>
    (Function.update found.1 modelKey (some ⟨.deployment, row, none⟩), found.2)
  | none, none => (found.1, found.2 ++ [modelKey])

/-- What this organization is charged for each key, and which rung says so. -/
def ratesInEffect (db : PriceTables) (organizationId : ℕ) (modelKeys : List Key)
    (asOf : Instant) : Key → Option EffectiveRate :=
  let stored := applicableRows db.overrides organizationId modelKeys asOf
  let deployment := deploymentRows db.modelPricing modelKeys asOf
  let (effective, unpriced) :=
    modelKeys.foldl (storedRung stored deployment) (fun _ => none, [])
  let defaults := communityDefaults db unpriced asOf
  fun modelKey =>
    ((defaults modelKey).map fun default => ⟨.defaults, default, none⟩).or (effective modelKey)

/-! ### What the page says of one key -/

/-- The three rungs under a key as it is spelled. -/
def rung (stored : Key → Option OrganizationModelPricing) (deployment : Key → Option ModelPricing)
    (modelKey : Key) : Option EffectiveRate :=
  match stored modelKey, deployment modelKey with
  | some row, _ => some ⟨.organization, overrideAsModelPricing row, some row⟩
  | none, some row => some ⟨.deployment, row, none⟩
  | none, none => none

section
variable {stored : Key → Option OrganizationModelPricing} {deployment : Key → Option ModelPricing}

theorem storedRung_fst (found : (Key → Option EffectiveRate) × List Key) (modelKey key : Key) :
    (storedRung stored deployment found modelKey).1 key =
      if key = modelKey ∧ (rung stored deployment key).isSome then rung stored deployment key
      else found.1 key := by
  by_cases hkey : key = modelKey
  · subst hkey
    unfold storedRung rung
    cases stored key <;> cases deployment key <;> simp
  · unfold storedRung
    cases stored modelKey <;> cases deployment modelKey <;> simp [hkey]

theorem mem_storedRung_snd {found : (Key → Option EffectiveRate) × List Key} {modelKey key : Key} :
    key ∈ (storedRung stored deployment found modelKey).2 ↔
      key ∈ found.2 ∨ key = modelKey ∧ rung stored deployment key = none := by
  unfold storedRung
  constructor
  · intro h
    cases hs : stored modelKey with
    | some row => rw [hs] at h; exact .inl h
    | none =>
      cases hd : deployment modelKey with
      | some row => rw [hs, hd] at h; exact .inl h
      | none =>
        rw [hs, hd] at h
        rcases mem_append.mp h with h | h
        · exact .inl h
        · obtain rfl := mem_singleton.mp h
          exact .inr ⟨rfl, by rw [rung, hs, hd]⟩
  · rintro (h | ⟨rfl, h⟩)
    · cases stored modelKey <;> cases deployment modelKey <;> simp [h]
    · unfold rung at h
      cases hs : stored key <;> cases hd : deployment key <;> simp [hs, hd] at h ⊢

variable (stored deployment) in
theorem foldl_storedRung (modelKeys : List Key) (found : (Key → Option EffectiveRate) × List Key)
    (key : Key) : (modelKeys.foldl (storedRung stored deployment) found).1 key =
        (if key ∈ modelKeys ∧ (rung stored deployment key).isSome then rung stored deployment key
        else found.1 key) ∧ (key ∈ (modelKeys.foldl (storedRung stored deployment) found).2 ↔
        key ∈ found.2 ∨ key ∈ modelKeys ∧ rung stored deployment key = none) := by
  induction modelKeys generalizing found with
  | nil => simp
  | cons modelKey rest ih =>
    obtain ⟨heffective, hunpriced⟩ := ih (storedRung stored deployment found modelKey)
    rw [foldl_cons]
    constructor
    · rw [heffective, storedRung_fst]
      by_cases hkey : key = modelKey <;> by_cases hmem : key ∈ rest <;>
        cases rung stored deployment key <;> simp [hkey, hmem]
    · rw [hunpriced, mem_storedRung_snd, mem_cons]
      tauto

end

theorem resolveDefaults_eq (db : PriceTables) (modelKeys : List Key) (asOf : Instant) (key : Key) :
    resolveDefaults db modelKeys asOf key =
      if key ∈ modelKeys then defaultModelPricing db key asOf else none := by
  unfold resolveDefaults
  suffices h : ∀ resolved : Key → Option ModelPricing,
      (∀ k, resolved k = none ∨ resolved k = defaultModelPricing db k asOf) →
      modelKeys.foldl (fun resolved modelKey =>
          match defaultModelPricing db modelKey asOf with
          | some default => Function.update resolved modelKey (some default)
          | none => resolved) resolved key =
        if key ∈ modelKeys then defaultModelPricing db key asOf else resolved key from
    h _ fun _ => .inl rfl
  induction modelKeys with
  | nil => intro resolved _; rfl
  | cons modelKey rest ih =>
    intro resolved hresolved
    rw [foldl_cons]
    cases hdefault : defaultModelPricing db modelKey asOf with
    | none =>
      dsimp only
      rw [ih resolved hresolved]
      by_cases hkey : key = modelKey
      · subst hkey
        rcases hresolved key with h | h <;> simp [h, hdefault]
      · simp [hkey]
    | some default =>
      dsimp only
      rw [ih _ fun k => ?_]
      · by_cases hkey : key = modelKey
        · subst hkey
          simp [hdefault]
        · simp [hkey]
      · by_cases hk : k = modelKey
        · subst hk
          exact .inr (by rw [Function.update_self, hdefault])
        · rw [Function.update_of_ne hk]
          exact hresolved k

variable {modelKeys : List Key} {key : Key}

/-- **The page, key by key.**  The organization's row, the deployment's row, then the dataset, each
under the key as it is spelled. -/
theorem ratesInEffect_eq (db : PriceTables) (organizationId : ℕ)
    (asOf : Instant) (hkey : key ∈ modelKeys) : ratesInEffect db organizationId modelKeys asOf key =
      (rung (applicableRows db.overrides organizationId modelKeys asOf)
        (deploymentRows db.modelPricing modelKeys asOf) key).or
        ((defaultModelPricing db key asOf).map fun default => ⟨.defaults, default, none⟩) := by
  obtain ⟨heffective, hunpriced⟩ := foldl_storedRung
    (applicableRows db.overrides organizationId modelKeys asOf)
    (deploymentRows db.modelPricing modelKeys asOf) modelKeys (fun _ => none, []) key
  unfold ratesInEffect communityDefaults
  dsimp only
  rw [heffective, resolveDefaults_eq]
  cases hrung : rung (applicableRows db.overrides organizationId modelKeys asOf)
      (deploymentRows db.modelPricing modelKeys asOf) key with
  | some rate =>
    have hnot : key ∉ keySet (modelKeys.foldl
        (storedRung (applicableRows db.overrides organizationId modelKeys asOf)
          (deploymentRows db.modelPricing modelKeys asOf)) (fun _ => none, [])).2 := by
      rw [keySet, mem_dedup, hunpriced, hrung]
      simp
    rw [if_neg hnot]
    simp [hkey]
  | none =>
    have hmem : key ∈ keySet (modelKeys.foldl
        (storedRung (applicableRows db.overrides organizationId modelKeys asOf)
          (deploymentRows db.modelPricing modelKeys asOf)) (fun _ => none, [])).2 := by
      rw [keySet, mem_dedup, hunpriced, hrung]
      exact .inr ⟨hkey, rfl⟩
    rw [if_pos hmem]
    simp

/-- The batched read of the price list holds, under each of its keys, the newest version in
effect. -/
theorem deploymentRows_eq {rows : List ModelPricing} (h : DistinctVersions rows) {keys : List Key}
    (hk : key ∈ keys) (asOf : Instant) :
    deploymentRows rows keys asOf key = findByModelKey rows key asOf := by
  obtain ⟨chunk, hc, hscan⟩ := scan_batched (·.modelKey) (selectNewest rows asOf)
    (fun chunk row hrow => by simp [selectNewest] at hrow; exact hrow.2.2.1) hk
  have hmem : ∀ row, row ∈ scan (·.modelKey) key (selectNewest rows asOf chunk) ↔
      findByModelKey rows key asOf = some row := by
    intro row
    rw [findByModelKey_eq_some h]
    simp only [scan, selectNewest, mem_filter, decide_eq_true_eq]
    constructor
    · rintro ⟨⟨hr, hkind, -, hlatest⟩, rfl⟩
      exact ⟨hr, hkind, rfl, hlatest⟩
    · rintro ⟨hr, hkind, rfl, hlatest⟩
      exact ⟨⟨hr, hkind, hc, hlatest⟩, rfl⟩
  unfold deploymentRows
  rw [foldl_batched_put, hscan]
  cases hlast : (scan (·.modelKey) key (selectNewest rows asOf chunk)).getLast? with
  | some row => exact ((hmem row).mp (mem_of_getLast? hlast)).symm
  | none =>
    cases hfound : findByModelKey rows key asOf with
    | none => rfl
    | some row =>
      rw [List.getLast?_eq_none_iff] at hlast
      have hrow := (hmem row).mpr hfound
      rw [hlast] at hrow
      cases hrow

/-! ### The page over the tables a write reads -/

/-! ### When the page has what the request is billed -/

/-- The spellings a request tries after the key itself. -/
def otherForms (modelKey : Key) : List Key := (pricingKeyForms modelKey).tail

/-- The override of a key that is newest in force, whoever wrote it. -/
def Newest (db : PriceTables) (organizationId : ℕ) (modelKey : Key) (asOf : Instant)
    (row : OrganizationModelPricing) : Prop :=
  row ∈ applicable db.overrides organizationId asOf false modelKey ∧
    ∀ other ∈ applicable db.overrides organizationId asOf false modelKey,
      other.effectiveFrom ≤ row.effectiveFrom

/-- The dataset says of the key, as the page splits it, what the default rung says of the request. -/
def SameDefault (db : PriceTables) (provider : Option Key) (model : Key) (asOf : Instant) : Prop :=
  defaultModelPricing db (modelKeyOf provider model) asOf =
    if db.defaultPricingEnabled then (db.defaultPricingMatch provider model asOf).map Prod.fst
    else none

/-- **The condition.**  What answers a request for `model` is one of the rungs the page reads. -/
structure OnPage (db : PriceTables) (organizationId : ℕ) (provider : Option Key) (model : Key)
    (asOf : Instant) (deploymentPaid : Bool) : Prop where
  /-- The override the page shows is one the payer may be billed at. -/
  payer : ∀ row, Newest db organizationId (modelKeyOf provider model) asOf row →
    row.forPayer deploymentPaid
  /-- Where the key has no override, neither has its other spelling. -/
  override : applicable db.overrides organizationId asOf false (modelKeyOf provider model) = [] →
    ∀ form ∈ otherForms (modelKeyOf provider model),
      applicable db.overrides organizationId asOf deploymentPaid form = []
  /-- Where the key has no stored rate at all, the price list has none under its other spelling. -/
  version : applicable db.overrides organizationId asOf false (modelKeyOf provider model) = [] →
    versionsInEffect db.modelPricing (modelKeyOf provider model) asOf = [] →
    ∀ form ∈ otherForms (modelKeyOf provider model),
      versionsInEffect db.modelPricing form asOf = []
  /-- Where the key has no stored rate at all, the dataset answers both alike. -/
  default : applicable db.overrides organizationId asOf false (modelKeyOf provider model) = [] →
    versionsInEffect db.modelPricing (modelKeyOf provider model) asOf = [] →
    SameDefault db provider model asOf

/-- The page gives the key the rate, from the rung, that the request is billed at. -/
def Agrees (db : PriceTables) (organizationId : ℕ) (modelKeys : List Key) (provider : Option Key)
    (model : Key) (asOf : Instant) (deploymentPaid : Bool) : Prop :=
  (ratesInEffect db organizationId modelKeys asOf (modelKeyOf provider model)).map
      (fun rate => (rate.source, rate.rates)) =
    (resolveModelPricing db provider model asOf (some organizationId) deploymentPaid).map
      fun resolved => (resolved.source, resolved.pricing)

theorem pricingKeyForms_cons (modelKey : Key) :
    pricingKeyForms modelKey = modelKey :: otherForms modelKey := by
  unfold otherForms pricingKeyForms
  split <;> rfl

variable {asOf : Instant}

theorem findByModelKey_eq_none {rows : List ModelPricing} :
    findByModelKey rows key asOf = none ↔ versionsInEffect rows key asOf = [] :=
  firstMax_eq_none

variable {rows : List OrganizationModelPricing} {organizationId : ℕ} {paid : Bool}

theorem selectedRow_eq_none : selectedRow rows organizationId modelKeys asOf paid = none ↔
      ∀ form ∈ modelKeys, applicable rows organizationId asOf paid form = [] := by
  unfold selectedRow
  rw [List.findSome?_eq_none_iff]
  exact forall₂_congr fun _ _ => firstMax_eq_none

theorem selectedRow_mem {row : OrganizationModelPricing}
    (h : selectedRow rows organizationId modelKeys asOf paid = some row) :
    ∃ form ∈ modelKeys, row ∈ applicable rows organizationId asOf paid form := by
  obtain ⟨form, hform, hrow⟩ := exists_of_findSome?_eq_some h
  exact ⟨form, hform, firstMax_mem hrow⟩

theorem resolveModelPricing_eq {db : PriceTables} (h : DistinctStarts db.overrides)
    (organizationId : ℕ) (provider : Option Key) (model : Key) (asOf : Instant) (paid : Bool) :
    (resolveModelPricing db provider model asOf (some organizationId) paid).map
        (fun resolved => (resolved.source, resolved.pricing)) =
      match selectedRow db.overrides organizationId (pricingKeyForms (modelKeyOf provider model))
          asOf paid with
      | some row => some (.organization, overrideAsModelPricing row)
      | none =>
        match (pricingKeyForms (modelKeyOf provider model)).findSome? fun form =>
            findByModelKey db.modelPricing form asOf with
        | some row => some (.deployment, row)
        | none => (if db.defaultPricingEnabled then
            (db.defaultPricingMatch provider model asOf).map Prod.fst else none).map
              fun pricing => (.defaults, pricing) := by
  unfold resolveModelPricing storedPricing
  simp only [Option.getD_none, Option.bind_some]
  rw [findOrganizationOverride_eq h organizationId (pricingKeyForms_nodup _)]
  cases selectedRow db.overrides organizationId (pricingKeyForms (modelKeyOf provider model)) asOf
    paid with
  | some row => rfl
  | none =>
    have hstored : ((pricingKeyForms (modelKeyOf provider model)).findSome? fun key =>
          (findByModelKey db.modelPricing key asOf).map ofDeployment) =
        ((pricingKeyForms (modelKeyOf provider model)).findSome? fun form =>
          findByModelKey db.modelPricing form asOf).map ofDeployment :=
      map_findSome?.symm
    rw [Option.map_none, Option.none_or, hstored]
    cases (pricingKeyForms (modelKeyOf provider model)).findSome? fun form =>
        findByModelKey db.modelPricing form asOf with
    | some row => rfl
    | none =>
      unfold defaultPricing
      cases db.defaultPricingEnabled <;>
        cases db.defaultPricingMatch provider model asOf <;> rfl

theorem ratesInEffect_rungs {db : PriceTables} (h : DistinctStarts db.overrides)
    (hv : DistinctVersions db.modelPricing) (organizationId : ℕ)
    (asOf : Instant) (hkey : key ∈ modelKeys) :
    (ratesInEffect db organizationId modelKeys asOf key).map
        (fun rate => (rate.source, rate.rates)) =
      match firstMax (·.effectiveFrom) (applicable db.overrides organizationId asOf false key) with
      | some row => some (.organization, overrideAsModelPricing row)
      | none =>
        match findByModelKey db.modelPricing key asOf with
        | some row => some (.deployment, row)
        | none => (defaultModelPricing db key asOf).map fun pricing => (.defaults, pricing) := by
  rw [ratesInEffect_eq db organizationId asOf hkey, rung, applicableRows_eq h organizationId hkey,
    deploymentRows_eq hv hkey]
  cases firstMax (·.effectiveFrom) (applicable db.overrides organizationId asOf false key) with
  | some row => rfl
  | none =>
    cases findByModelKey db.modelPricing key asOf with
    | some row => rfl
    | none => cases defaultModelPricing db key asOf <;> rfl

theorem applicable_false {row : OrganizationModelPricing}
    (h : row ∈ applicable rows organizationId asOf paid key) :
    row ∈ applicable rows organizationId asOf false key := by
  obtain ⟨hr, ho, hk, hc, -⟩ := mem_applicable.mp h
  exact mem_applicable.mpr ⟨hr, ho, hk, hc, nofun⟩

section
variable {db : PriceTables} {organizationId : ℕ} {provider : Option Key} {model : Key}
  {asOf : Instant} {paid : Bool}

variable (paid) in
theorem selectedRow_newest (h : DistinctStarts db.overrides) {key : Key}
    {row : OrganizationModelPricing}
    (hrow : firstMax (·.effectiveFrom) (applicable db.overrides organizationId asOf false key) =
      some row) : (selectedRow db.overrides organizationId (pricingKeyForms key) asOf paid).map
        overrideAsModelPricing = some (overrideAsModelPricing row) ↔ row.forPayer paid := by
  have hmem := firstMax_mem hrow
  obtain ⟨hr, ho, hk, hc, -⟩ := mem_applicable.mp hmem
  constructor
  · intro heq
    obtain ⟨row', hselected, hsame⟩ := Option.map_eq_some_iff.mp heq
    obtain ⟨form, -, hrow'⟩ := selectedRow_mem hselected
    obtain ⟨hr', ho', -, -, hpayer⟩ := mem_applicable.mp hrow'
    -- two rows that present alike are one: the key and the start are presented
    have : row' = row := h.eq_of_start hr' hr ho' ho (congrArg ModelPricing.modelKey hsame)
      (congrArg ModelPricing.effectiveAt hsame)
    exact this ▸ hpayer
  · intro hpayer
    have hfirst : firstMax (·.effectiveFrom) (applicable db.overrides organizationId asOf paid key) =
        some row := by
      refine firstMax_eq_some (mem_applicable.mpr ⟨hr, ho, hk, hc, hpayer⟩) fun b hb hne => ?_
      exact lt_of_le_of_ne (le_firstMax hrow (applicable_false hb)) fun heq =>
        hne (applicable_inj h b (applicable_false hb) row hmem heq)
    rw [selectedRow, pricingKeyForms_cons, List.findSome?_cons, hfirst]
    rfl

theorem selectedRow_otherForms {key : Key}
    (hnone : applicable db.overrides organizationId asOf false key = []) :
    selectedRow db.overrides organizationId (pricingKeyForms key) asOf paid =
      selectedRow db.overrides organizationId (otherForms key) asOf paid := by
  have hkey : applicable db.overrides organizationId asOf paid key = [] :=
    eq_nil_iff_forall_not_mem.mpr fun row hrow => by
      have := applicable_false hrow
      rw [hnone] at this
      cases this
  unfold selectedRow
  rw [pricingKeyForms_cons, List.findSome?_cons, hkey]
  rfl

/-- **The page and the bill.**  They agree on a key exactly where the rung that answers the request
is one the page reads. -/
theorem rates_page_iff (h : DistinctStarts db.overrides) (hv : DistinctVersions db.modelPricing)
    {modelKeys : List Key} (hkey : modelKeyOf provider model ∈ modelKeys) :
    Agrees db organizationId modelKeys provider model asOf paid ↔
      OnPage db organizationId provider model asOf paid := by
  unfold Agrees
  rw [ratesInEffect_rungs h hv organizationId asOf hkey, resolveModelPricing_eq h]
  cases hrow : firstMax (·.effectiveFrom)
      (applicable db.overrides organizationId asOf false (modelKeyOf provider model)) with
  | some row =>
    have hmem := firstMax_mem hrow
    have hsome : applicable db.overrides organizationId asOf false (modelKeyOf provider model) ≠
        [] := List.ne_nil_of_mem hmem
    have hpayer : OnPage db organizationId provider model asOf paid ↔ row.forPayer paid := by
      constructor
      · exact fun hon => hon.payer row ⟨hmem, fun other hother => le_firstMax hrow hother⟩
      · refine fun hp => ⟨fun row' hnewest => ?_, fun e => absurd e hsome,
          fun e => absurd e hsome, fun e => absurd e hsome⟩
        have : row' = row := applicable_inj h row' hnewest.1 row hmem
          (le_antisymm (le_firstMax hrow hnewest.1) (hnewest.2 row hmem))
        exact this ▸ hp
    rw [hpayer, ← selectedRow_newest paid h hrow]
    cases hselected : selectedRow db.overrides organizationId
        (pricingKeyForms (modelKeyOf provider model)) asOf paid with
    | some row' =>
      simp only [Option.map_some, Option.some.injEq, Prod.mk.injEq, true_and]
      exact eq_comm
    | none =>
      dsimp only
      split <;> simp
  | none =>
    rw [firstMax_eq_none] at hrow
    rw [selectedRow_otherForms hrow]
    cases hselected : selectedRow db.overrides organizationId
        (otherForms (modelKeyOf provider model)) asOf paid with
    | some row' =>
      -- billed at an override of the other spelling, and the page shows none
      have hoff : ¬ OnPage db organizationId provider model asOf paid := fun hon => by
        rw [selectedRow_eq_none.mpr (hon.override hrow)] at hselected
        cases hselected
      refine iff_of_false ?_ hoff
      dsimp only
      split <;> simp
    | none =>
      have hother := selectedRow_eq_none.mp hselected
      rw [pricingKeyForms_cons, List.findSome?_cons]
      cases hversion : findByModelKey db.modelPricing (modelKeyOf provider model) asOf with
      | some row =>
        refine iff_of_true rfl ⟨fun row' hnewest => ?_, fun _ => hother, fun _ e => ?_,
          fun _ e => ?_⟩
        · rw [Newest, hrow] at hnewest
          cases hnewest.1
        · rw [findByModelKey_eq_none.mpr e] at hversion
          cases hversion
        · rw [findByModelKey_eq_none.mpr e] at hversion
          cases hversion
      | none =>
        have hnil := findByModelKey_eq_none.mp hversion
        dsimp only
        cases hlegacy : (otherForms (modelKeyOf provider model)).findSome? fun form =>
            findByModelKey db.modelPricing form asOf with
        | some row =>
          -- billed at a version of the other spelling, and the page asks the dataset
          have hoff : ¬ OnPage db organizationId provider model asOf paid := fun hon => by
            obtain ⟨form, hform, hfound⟩ := List.exists_of_findSome?_eq_some hlegacy
            rw [findByModelKey_eq_none.mpr (hon.version hrow hnil form hform)] at hfound
            cases hfound
          refine iff_of_false ?_ hoff
          cases defaultModelPricing db (modelKeyOf provider model) asOf <;> simp
        | none =>
          have hdefault : OnPage db organizationId provider model asOf paid ↔
              SameDefault db provider model asOf := by
            constructor
            · exact fun hon => hon.default hrow hnil
            · refine fun hsame => ⟨fun row' hnewest => ?_, fun _ => hother,
                fun _ _ form hform => ?_, fun _ _ => hsame⟩
              · rw [Newest, hrow] at hnewest
                cases hnewest.1
              · exact findByModelKey_eq_none.mp
                  (List.findSome?_eq_none_iff.mp hlegacy form hform)
          rw [hdefault, SameDefault]
          exact (Option.map_injective fun a b e => (Prod.mk.inj e).2).eq_iff

end

/-- A deployment whose price list still spells one key `a/b`, and whose dataset lists every model
at 5. -/
def legacyList : PriceTables where
  overrides := []
  modelPricing :=
    [{ modelKey := ['a', '/', 'b'], effectiveAt := 0,
       columns := { inputPricePerMillion := 1, outputPricePerMillion := 1 } }]
  defaultPricingEnabled := true
  defaultPricingMatch := fun provider model asOf =>
    some ({ modelKey := modelKeyOf provider model, effectiveAt := asOf,
            columns := { inputPricePerMillion := 5, outputPricePerMillion := 5 } }, model)

/-- `a:c` has no stored rate in either spelling: the page and the bill both have the dataset's. -/
theorem rates_page_default :
    Agrees legacyList 0 [['a', ':', 'b'], ['a', ':', 'c']] (some ['a']) ['c'] 10 false :=
  (rates_page_iff (by unfold DistinctStarts; decide) (by unfold DistinctVersions; decide)
    (by decide)).mpr
    { payer := fun row h => by cases h.1
      override := by decide
      version := by decide
      default := fun _ _ => by unfold SameDefault; decide +kernel }

/-- The page shows the dataset's 5 for `a:b`, and the request is billed the 1 of the legacy row. -/
theorem legacy_rate_off_page :
    DistinctStarts legacyList.overrides ∧ DistinctVersions legacyList.modelPricing ∧
      (ratesInEffect legacyList 0 [['a', ':', 'b']] 10 ['a', ':', 'b']).map
          (·.rates.columns.inputPricePerMillion) = some 5 ∧
      (resolveModelPricing legacyList (some ['a']) ['b'] 10 (some 0) false).map
          (·.pricing.columns.inputPricePerMillion) = some 1 := by
  unfold DistinctStarts DistinctVersions
  decide +kernel

end Otari.Pricing.Page

import Otari.Pricing.Overrides

/-!
# Pricing — CurrentRates — the listings of current rates against the lookup

`services/pricing_service.py`: `ratesInForce` and `currentRatesPage`, and which of their rows a
lookup of some selector returns.  A selector's canonical and legacy spellings determine it
(`split_unique`), so a row is returned exactly when it is the newest in effect of its key and, if
the key is a legacy one, its canonical form has none (`lookupRow_canonical`, `lookupRow_legacy`).

`current_rates_agree` says where the listings report the same rows.  They part from the lookup on
two kinds of legacy keys: one whose model name has a colon is not recognised as shadowed
(`ColonLegacyBeside`), and one whose canonical form has only started rows in the future, or rows of
another kind, is hidden (`HiddenByUnstarted`).
-/

namespace Otari.Pricing
open Select Index List

/-- A provider instance and a model: the instance's name has neither separator. -/
structure Selector where
  provider : Key
  model : Key
  provider_ne : provider ≠ []
  provider_plain : ∀ c ∈ provider, c ≠ ':' ∧ c ≠ '/'

/-- `provider:model`. -/
def Selector.key (s : Selector) : Key := selectorKey s.provider s.model

/-- `provider/model`. -/
def Selector.legacyKey (s : Selector) : Key := s.provider ++ '/' :: s.model

/-! ### The listings -/

/-- The `provider:model` spelling of a key stored in the legacy form. -/
def canonicalKeyForm (modelKey : Key) : Key :=
  match partition '/' modelKey with
  | (instanceName, some model) => if ':' ∈ modelKey then modelKey else selectorKey instanceName model
  | (_, none) => modelKey

/-- Each priced model's stored rate in force at `asOf`. -/
def ratesInForce (rows : List ModelPricing) (asOf : Instant) (limit : ℕ)
    (excludeKeyPrefix : Option Key := none) : List ModelPricing :=
  let rows := orderBy (·.modelKey) (rows.filter fun row =>
    row.kind = .model ∧ latestEffective rows asOf row.modelKey = some row.effectiveAt ∧
      ∀ pre ∈ excludeKeyPrefix, ¬ pre <+: row.modelKey)
  let stored := rows.map (·.modelKey)
  (rows.filter fun row => canonicalKeyForm row.modelKey ∉ stored.filter (· ≠ row.modelKey)).take limit

/-- `SELECT DISTINCT model_key … WHERE model_key LIKE '%/%' AND model_key NOT LIKE '%:%'`. -/
def legacyKeys (rows : List ModelPricing) : List Key :=
  keySet ((rows.map (·.modelKey)).filter fun key => '/' ∈ key ∧ ':' ∉ key)

/-- Legacy `provider/model` keys that also exist as `provider:model`. -/
def keysShadowedByTheirCanonicalForm (rows : List ModelPricing) : List Key :=
  let wanted := keySet ((legacyKeys rows).map canonicalKeyForm)
  let present := (batches keyChunk wanted).flatMap fun chunk =>
    (rows.map (·.modelKey)).filter (· ∈ chunk)
  (legacyKeys rows).filter fun key => canonicalKeyForm key ∈ present

/-- Keys priced under none of `providers`, in either spelling. -/
def outsideProviders (providers : List Key) (modelKey : Key) : Prop :=
  ∀ provider ∈ providers, ∀ separator ∈ [':', '/'], ¬ (provider ++ [separator]) <+: modelKey

instance (providers : List Key) (modelKey : Key) : Decidable (outsideProviders providers modelKey) :=
  inferInstanceAs (Decidable (∀ provider ∈ providers, ∀ separator ∈ [':', '/'], _))

/-- `MIN(…)`, null over no rows. -/
def minOf (starts : List Instant) : Option Instant :=
  (maxOf (starts.map OrderDual.toDual)).map OrderDual.ofDual

def startsOf (rows : List ModelPricing) (kind : PricingKind) (modelKey : Key) : List Instant :=
  (rows.filter fun row => row.kind = kind ∧ row.modelKey = modelKey).map (·.effectiveAt)

/-- `COALESCE(MAX(CASE WHEN effective_at <= … THEN effective_at END), MIN(effective_at))`. -/
def chosenStart (rows : List ModelPricing) (asOf : Instant) (kind : PricingKind)
    (modelKey : Key) : Option Instant :=
  (maxOf ((startsOf rows kind modelKey).filter (· ≤ asOf))).or (minOf (startsOf rows kind modelKey))

/-- The rows the page is cut from: each priced key's chosen row. -/
def chosenRows (rows : List ModelPricing) (asOf : Instant) (hiddenProviders : List Key) :
    List ModelPricing :=
  rows.filter fun row =>
    row.modelKey ∉ keysShadowedByTheirCanonicalForm rows ∧
      outsideProviders hiddenProviders row.modelKey ∧
      chosenStart rows asOf row.kind row.modelKey = some row.effectiveAt

def PricingKind.rank : PricingKind → ℕ
  | .fetch => 0
  | .model => 1
  | .search => 2

/-- One page of each priced key's current rate, of every kind, with the total key count. -/
def currentRatesPage (rows : List ModelPricing) (skip limit : ℕ) (asOf : Instant)
    (hiddenProviders : List Key := []) : List ModelPricing × ℕ :=
  let chosen := chosenRows rows asOf hiddenProviders
  ((orderBy (fun row => toLex (row.modelKey, row.kind.rank)) chosen |>.drop skip).take limit,
    (chosen.map fun row => (row.kind, row.modelKey)).dedup.length)

def lookupRow (rows : List ModelPricing) (s : Selector) (asOf : Instant) : Option ModelPricing :=
  (pricingKeyForms s.key).findSome? fun key => findByModelKey rows key asOf

/-! ### Spellings -/

theorem split_unique {p p' m m' : Key} {c c' : Char} (hp : ∀ x ∈ p, x ≠ ':' ∧ x ≠ '/')
    (hp' : ∀ x ∈ p', x ≠ ':' ∧ x ≠ '/') (hc : c = ':' ∨ c = '/') (hc' : c' = ':' ∨ c' = '/')
    (h : p ++ c :: m = p' ++ c' :: m') : p = p' ∧ c = c' ∧ m = m' := by
  have hsep : ∀ {x : Char} {q : Key} {d : Char}, (∀ y ∈ x :: q, y ≠ ':' ∧ y ≠ '/') →
      d = ':' ∨ d = '/' → d ≠ x := by
    rintro x q d hq hd rfl
    obtain ⟨h₁, h₂⟩ := hq d mem_cons_self
    exact hd.elim h₁ h₂
  induction p generalizing p' with
  | nil =>
    cases p' with
    | nil => cases h; exact ⟨rfl, rfl, rfl⟩
    | cons x p' => exact absurd (List.cons.inj h).1 (hsep hp' hc)
  | cons x p ih =>
    cases p' with
    | nil => exact absurd (List.cons.inj h).1.symm (hsep hp hc')
    | cons y p' =>
      obtain ⟨hxy, htail⟩ := List.cons.inj h
      obtain ⟨hpp, hcc, hmm⟩ := ih (fun z hz => hp z (mem_cons_of_mem _ hz))
        (fun z hz => hp' z (mem_cons_of_mem _ hz)) htail
      exact ⟨by rw [hxy, hpp], hcc, hmm⟩

theorem partition_append {separator : Char} {p m : Key} (hp : ∀ c ∈ p, c ≠ separator) :
    partition separator (p ++ separator :: m) = (p, some m) := by
  have htake : (p ++ separator :: m).takeWhile (· ≠ separator) = p := by
    rw [takeWhile_append_of_pos (fun c hc => by simpa using hp c hc)]
    simp
  have hdrop : (p ++ separator :: m).dropWhile (· ≠ separator) = separator :: m := by
    rw [dropWhile_append_of_pos (fun c hc => by simpa using hp c hc)]
    simp
  unfold partition
  rw [htake, hdrop]
  rfl

variable (s : Selector)

theorem Selector.forms : pricingKeyForms s.key = [s.key, s.legacyKey] := by
  unfold pricingKeyForms
  rw [Selector.key, selectorKey, partition_append fun c hc => (s.provider_plain c hc).1]
  rfl

theorem Selector.key_ne_legacyKey (s s' : Selector) : s.key ≠ s'.legacyKey := fun h => by
  obtain ⟨-, hc, -⟩ := split_unique s.provider_plain s'.provider_plain (.inl rfl) (.inr rfl) h
  cases hc

theorem Selector.legacyKey_inj {s s' : Selector} (h : s.legacyKey = s'.legacyKey) : s = s' := by
  obtain ⟨hp, -, hm⟩ := split_unique s.provider_plain s'.provider_plain (.inr rfl) (.inr rfl) h
  cases s
  cases s'
  cases hp
  cases hm
  rfl

theorem Selector.colon_mem_legacyKey : ':' ∈ s.legacyKey ↔ ':' ∈ s.model := by
  unfold Selector.legacyKey
  rw [mem_append, mem_cons]
  constructor
  · rintro (h | h | h)
    · exact absurd rfl (s.provider_plain ':' h).1
    · cases h
    · exact h
  · exact fun h => .inr (.inr h)

theorem Selector.canonicalKeyForm_key : canonicalKeyForm s.key = s.key := by
  have hcolon : ':' ∈ s.key := by simp [Selector.key, selectorKey]
  unfold canonicalKeyForm
  split
  · rw [if_pos hcolon]
  · rfl

theorem Selector.canonicalKeyForm_legacyKey :
    canonicalKeyForm s.legacyKey = if ':' ∈ s.model then s.legacyKey else s.key := by
  unfold canonicalKeyForm
  rw [show partition '/' s.legacyKey = (s.provider, some s.model) from
    partition_append fun c hc => (s.provider_plain c hc).2]
  simp only [s.colon_mem_legacyKey]
  rfl

/-! ### What a lookup returns -/

/-- The primary key: no two versions of one kind and key start at one instant. -/
def DistinctVersions (rows : List ModelPricing) : Prop :=
  ∀ a ∈ rows, ∀ b ∈ rows, a.kind = b.kind → a.modelKey = b.modelKey →
    a.effectiveAt = b.effectiveAt → a = b

/-- Every model row is stored under a selector, in one spelling or the other. -/
def SpelledKeys (rows : List ModelPricing) : Prop :=
  ∀ row ∈ rows, row.kind = .model → ∃ s : Selector,
    row.modelKey = s.key ∨ row.modelKey = s.legacyKey

variable {rows : List ModelPricing} {key : Key} {asOf : Instant} {row : ModelPricing}

theorem mem_versionsInEffect : row ∈ versionsInEffect rows key asOf ↔
      row ∈ rows ∧ row.kind = .model ∧ row.modelKey = key ∧ row.effectiveAt ≤ asOf := by
  simp [versionsInEffect]

theorem findByModelKey_eq_some (hv : DistinctVersions rows) :
    findByModelKey rows key asOf = some row ↔ row ∈ rows ∧ row.kind = .model ∧ row.modelKey = key ∧
        latestEffective rows asOf key = some row.effectiveAt := by
  unfold latestEffective
  rw [maxOf_map]
  constructor
  · intro h
    obtain ⟨hr, hk, hkey, -⟩ := mem_versionsInEffect.mp (firstMax_mem h)
    unfold findByModelKey at h
    exact ⟨hr, hk, hkey, by rw [h]; rfl⟩
  · rintro ⟨hr, hk, hkey, h⟩
    obtain ⟨row', hfound, hstart⟩ := Option.map_eq_some_iff.mp h
    obtain ⟨hr', hk', hkey', -⟩ := mem_versionsInEffect.mp (firstMax_mem hfound)
    have : row' = row := hv row' hr' row hr (hk'.trans hk.symm) (hkey'.trans hkey.symm) hstart
    exact this ▸ hfound

theorem lookupRow_eq (asOf : Instant) : lookupRow rows s asOf =
      (findByModelKey rows s.key asOf).or (findByModelKey rows s.legacyKey asOf) := by
  unfold lookupRow
  rw [s.forms, List.findSome?_cons, List.findSome?_cons, List.findSome?_nil]
  cases findByModelKey rows s.key asOf <;> cases findByModelKey rows s.legacyKey asOf <;> rfl

/-- Some selector's lookup returns the row. -/
def LookedUp (rows : List ModelPricing) (asOf : Instant) (row : ModelPricing) : Prop :=
  ∃ s : Selector, lookupRow rows s asOf = some row

theorem lookedUp_canonical
    {s : Selector} (hkey : row.modelKey = s.key) (hv : DistinctVersions rows) :
    LookedUp rows asOf row ↔ findByModelKey rows row.modelKey asOf = some row := by
  constructor
  · rintro ⟨s', h⟩
    rw [lookupRow_eq, Option.or_eq_some_iff] at h
    rcases h with h | ⟨-, h⟩
    · exact ((findByModelKey_eq_some hv).mp h).2.2.1 ▸ h
    · exact ((findByModelKey_eq_some hv).mp h).2.2.1 ▸ h
  · intro h
    exact ⟨s, by rw [lookupRow_eq, ← hkey, h]; rfl⟩

theorem lookedUp_legacy
    {s : Selector} (hkey : row.modelKey = s.legacyKey) (hv : DistinctVersions rows) :
    LookedUp rows asOf row ↔ findByModelKey rows row.modelKey asOf = some row ∧
      findByModelKey rows s.key asOf = none := by
  constructor
  · rintro ⟨s', h⟩
    rw [lookupRow_eq, Option.or_eq_some_iff] at h
    rcases h with h | ⟨hnone, h⟩
    · have hk := ((findByModelKey_eq_some hv).mp h).2.2.1
      exact absurd (hk.symm.trans hkey) (s'.key_ne_legacyKey s)
    · have hk := ((findByModelKey_eq_some hv).mp h).2.2.1
      obtain rfl : s' = s := Selector.legacyKey_inj (hk.symm.trans hkey)
      exact ⟨hkey ▸ h, hnone⟩
  · rintro ⟨h, hnone⟩
    exact ⟨s, by rw [lookupRow_eq, hnone, ← hkey, h]; rfl⟩

/-! ### What the listings show -/

/-- A legacy key whose model name has a colon, beside its canonical form in force. -/
def ColonLegacyBeside (rows : List ModelPricing) (asOf : Instant) (key : Key) : Prop :=
  ∃ s : Selector, key = s.legacyKey ∧ ':' ∈ s.model ∧ (findByModelKey rows s.key asOf).isSome

/-- A legacy key whose canonical form is stored but has no model row in force. -/
def HiddenByUnstarted (rows : List ModelPricing) (asOf : Instant) (key : Key) : Prop :=
  ∃ s : Selector, key = s.legacyKey ∧ ':' ∉ s.model ∧ (∃ row ∈ rows, row.modelKey = s.key) ∧
    findByModelKey rows s.key asOf = none

variable {limit : ℕ}

/-- With the whole listing asked for, a row is in it when it is in force and its canonical spelling
is not the key of another row in force. -/
theorem mem_ratesInForce (hv : DistinctVersions rows) (hlimit : rows.length ≤ limit) :
    row ∈ ratesInForce rows asOf limit ↔ findByModelKey rows row.modelKey asOf = some row ∧
      (canonicalKeyForm row.modelKey = row.modelKey ∨
        findByModelKey rows (canonicalKeyForm row.modelKey) asOf = none) := by
  unfold ratesInForce
  dsimp only
  rw [take_of_length_le]
  · have hin : ∀ r, r ∈ orderBy (·.modelKey) (rows.filter fun row => row.kind = .model ∧
        latestEffective rows asOf row.modelKey = some row.effectiveAt ∧
          ∀ pre ∈ (none : Option Key), ¬ pre <+: row.modelKey) ↔
        findByModelKey rows r.modelKey asOf = some r := by
      intro r
      rw [mem_orderBy, mem_filter, decide_eq_true_eq, findByModelKey_eq_some hv]
      exact ⟨fun ⟨hr, hk, hl, _⟩ => ⟨hr, hk, rfl, hl⟩,
        fun ⟨hr, hk, _, hl⟩ => ⟨hr, hk, hl, fun pre h => by cases h⟩⟩
    rw [mem_filter, hin, decide_eq_true_eq, mem_filter, mem_map]
    refine and_congr_right fun hrow => ⟨fun h => or_iff_not_imp_left.mpr fun hne => ?_, ?_⟩
    · by_contra hsome
      obtain ⟨row', hrow'⟩ := Option.ne_none_iff_exists'.mp hsome
      have hkey' := ((findByModelKey_eq_some hv).mp hrow').2.2.1
      exact h ⟨⟨row', (hin row').mpr (hkey' ▸ hrow'), hkey'⟩, by simpa using hne⟩
    · rintro hcanon ⟨⟨row', hrow', hkey'⟩, hne⟩
      rcases hcanon with heq | hnone
      · simp [heq] at hne
      · have hfound := (hin row').mp hrow'
        rw [hkey', hnone] at hfound
        cases hfound
  · refine (length_filter_le _ _).trans ?_
    unfold orderBy
    rw [length_insertionSort]
    exact (length_filter_le _ _).trans hlimit

theorem mem_keysShadowed : key ∈ keysShadowedByTheirCanonicalForm rows ↔
      (∃ row ∈ rows, row.modelKey = key) ∧ '/' ∈ key ∧ ':' ∉ key ∧
        ∃ row ∈ rows, row.modelKey = canonicalKeyForm key := by
  unfold keysShadowedByTheirCanonicalForm legacyKeys
  dsimp only
  simp only [mem_filter, mem_keySet, mem_map, mem_flatMap, decide_eq_true_eq]
  constructor
  · rintro ⟨⟨hrow, hs, hc⟩, chunk, -, ⟨row, hr, hkey⟩, -⟩
    exact ⟨hrow, hs, hc, row, hr, hkey⟩
  · rintro ⟨hrow, hs, hc, row, hr, hkey⟩
    have hwanted : canonicalKeyForm key ∈ (batches keyChunk (keySet
        ((keySet ((rows.map (·.modelKey)).filter fun key => '/' ∈ key ∧ ':' ∉ key)).map
          canonicalKeyForm))).flatten := by
      rw [flatten_batches (by decide), mem_keySet]
      refine mem_map_of_mem ?_
      simp only [mem_keySet, mem_filter, mem_map, decide_eq_true_eq]
      exact ⟨hrow, hs, hc⟩
    obtain ⟨chunk, hchunk, hmem⟩ := mem_flatten.mp hwanted
    exact ⟨⟨hrow, hs, hc⟩, chunk, hchunk, ⟨row, hr, hkey⟩, hmem⟩

theorem mem_startsOf {kind : PricingKind} {t : Instant} : t ∈ startsOf rows kind key ↔
      ∃ row ∈ rows, row.kind = kind ∧ row.modelKey = key ∧ row.effectiveAt = t := by
  simp [startsOf, and_assoc]

theorem minOf_eq_some {l : List Instant} {m : Instant} :
    minOf l = some m ↔ m ∈ l ∧ ∀ t ∈ l, m ≤ t := by
  unfold minOf
  rw [Option.map_eq_some_iff]
  constructor
  · rintro ⟨d, h, rfl⟩
    obtain ⟨hmem, hle⟩ := maxOf_eq_some.mp h
    obtain ⟨t, ht, rfl⟩ := mem_map.mp hmem
    exact ⟨ht, fun t' ht' => OrderDual.toDual_le_toDual.mp (hle _ (mem_map_of_mem ht'))⟩
  · rintro ⟨hmem, hle⟩
    refine ⟨OrderDual.toDual m, maxOf_eq_some.mpr ⟨mem_map_of_mem hmem, ?_⟩, rfl⟩
    rintro d hd
    obtain ⟨t, ht, rfl⟩ := mem_map.mp hd
    exact OrderDual.toDual_le_toDual.mpr (hle t ht)

theorem chosenStart_effective (hrow : row ∈ rows) (hle : row.effectiveAt ≤ asOf) :
    chosenStart rows asOf row.kind row.modelKey = some row.effectiveAt ↔
      ∀ r ∈ rows, r.kind = row.kind → r.modelKey = row.modelKey → r.effectiveAt ≤ asOf →
        r.effectiveAt ≤ row.effectiveAt := by
  have hmem : row.effectiveAt ∈ (startsOf rows row.kind row.modelKey).filter (· ≤ asOf) :=
    mem_filter.mpr ⟨mem_startsOf.mpr ⟨row, hrow, rfl, rfl, rfl⟩, by simpa using hle⟩
  have hor : chosenStart rows asOf row.kind row.modelKey =
      maxOf ((startsOf rows row.kind row.modelKey).filter (· ≤ asOf)) := by
    unfold chosenStart
    cases hm : maxOf ((startsOf rows row.kind row.modelKey).filter (· ≤ asOf)) with
    | none => rw [maxOf_eq_none.mp hm] at hmem; cases hmem
    | some m => rfl
  rw [hor, maxOf_eq_some]
  constructor
  · rintro ⟨-, h⟩ r hr hk hkey hra
    exact h _ (mem_filter.mpr ⟨mem_startsOf.mpr ⟨r, hr, hk, hkey, rfl⟩, by simpa using hra⟩)
  · refine fun h => ⟨hmem, fun t ht => ?_⟩
    obtain ⟨ht, hta⟩ := mem_filter.mp ht
    obtain ⟨r, hr, hk, hkey, rfl⟩ := mem_startsOf.mp ht
    exact h r hr hk hkey (by simpa using hta)

theorem chosenStart_scheduled (hrow : row ∈ rows) (hlt : asOf < row.effectiveAt) :
    chosenStart rows asOf row.kind row.modelKey = some row.effectiveAt ↔
      ∀ r ∈ rows, r.kind = row.kind → r.modelKey = row.modelKey →
        row.effectiveAt ≤ r.effectiveAt := by
  unfold chosenStart
  cases hm : maxOf ((startsOf rows row.kind row.modelKey).filter (· ≤ asOf)) with
  | none =>
    rw [Option.none_or, minOf_eq_some]
    constructor
    · exact fun h r hr hk hkey => h.2 _ (mem_startsOf.mpr ⟨r, hr, hk, hkey, rfl⟩)
    · refine fun h => ⟨mem_startsOf.mpr ⟨row, hrow, rfl, rfl, rfl⟩, fun t ht => ?_⟩
      obtain ⟨r, hr, hk, hkey, rfl⟩ := mem_startsOf.mp ht
      exact h r hr hk hkey
  | some m =>
    obtain ⟨hmem, -⟩ := maxOf_eq_some.mp hm
    obtain ⟨hmem, hma⟩ := mem_filter.mp hmem
    obtain ⟨r, hr, hk, hkey, rfl⟩ := mem_startsOf.mp hmem
    have hma : r.effectiveAt ≤ asOf := by simpa using hma
    rw [Option.some_or]
    constructor
    · intro h
      rw [Option.some.inj h] at hma
      exact absurd hma (not_le.mpr hlt)
    · intro h
      exact absurd ((h r hr hk hkey).trans hma) (not_le.mpr hlt)

/-- A row is on some page of the current rates. -/
def OnPage (rows : List ModelPricing) (asOf : Instant) (limit : ℕ) (row : ModelPricing) : Prop :=
  ∃ skip, row ∈ (currentRatesPage rows skip limit asOf).1

theorem onPage_iff (hlimit : 0 < limit) : OnPage rows asOf limit row ↔ row ∈ rows ∧
      row.modelKey ∉ keysShadowedByTheirCanonicalForm rows ∧
      chosenStart rows asOf row.kind row.modelKey = some row.effectiveAt := by
  unfold OnPage currentRatesPage
  dsimp only
  rw [exists_mem_page hlimit, mem_orderBy, chosenRows, mem_filter, decide_eq_true_eq]
  have hout : outsideProviders [] row.modelKey := fun p hp => absurd hp not_mem_nil
  exact ⟨fun ⟨hr, hs, _, hc⟩ => ⟨hr, hs, hc⟩, fun ⟨hr, hs, hc⟩ => ⟨hr, hs, hout, hc⟩⟩

theorem chosenStart_model (hv : DistinctVersions rows) (hrow : row ∈ rows) (hk : row.kind = .model)
    (hle : row.effectiveAt ≤ asOf) :
    chosenStart rows asOf row.kind row.modelKey = some row.effectiveAt ↔
      findByModelKey rows row.modelKey asOf = some row := by
  rw [chosenStart_effective hrow hle, findByModelKey_eq_some hv, latestEffective, maxOf_eq_some]
  have hmine : row ∈ versionsInEffect rows row.modelKey asOf :=
    mem_versionsInEffect.mpr ⟨hrow, hk, rfl, hle⟩
  constructor
  · refine fun h => ⟨hrow, hk, rfl, mem_map_of_mem hmine, fun t ht => ?_⟩
    obtain ⟨r, hr, rfl⟩ := mem_map.mp ht
    obtain ⟨hr, hk', hkey, hra⟩ := mem_versionsInEffect.mp hr
    exact h r hr (hk'.trans hk.symm) hkey hra
  · rintro ⟨-, -, -, -, h⟩ r hr hk' hkey hra
    exact h _ (mem_map_of_mem (mem_versionsInEffect.mpr ⟨hr, hk'.trans hk, hkey, hra⟩))

theorem legacyKey_shadowed (rows : List ModelPricing) (s : Selector)
    (hstored : ∃ row ∈ rows, row.modelKey = s.legacyKey) :
    s.legacyKey ∈ keysShadowedByTheirCanonicalForm rows ↔
      ':' ∉ s.model ∧ ∃ row ∈ rows, row.modelKey = s.key := by
  have hslash : '/' ∈ s.legacyKey := by simp [Selector.legacyKey]
  rw [mem_keysShadowed, s.colon_mem_legacyKey, s.canonicalKeyForm_legacyKey]
  constructor
  · rintro ⟨-, -, hc, h⟩
    rw [if_neg hc] at h
    exact ⟨hc, h⟩
  · rintro ⟨hc, h⟩
    rw [if_neg hc]
    exact ⟨hstored, hslash, hc, h⟩

theorem key_not_shadowed : s.key ∉ keysShadowedByTheirCanonicalForm rows := fun h =>
  (mem_keysShadowed.mp h).2.2.1 (by simp [Selector.key, selectorKey])

theorem LookedUp.found (hv : DistinctVersions rows)
    (hs : SpelledKeys rows) (h : LookedUp rows asOf row) :
    findByModelKey rows row.modelKey asOf = some row ∧ ∃ s : Selector, row.modelKey = s.key ∨
        row.modelKey = s.legacyKey ∧ findByModelKey rows s.key asOf = none := by
  have hkey : ∃ key, findByModelKey rows key asOf = some row := by
    obtain ⟨s, hlook⟩ := h
    rw [lookupRow_eq, Option.or_eq_some_iff] at hlook
    exact hlook.elim (fun h => ⟨_, h⟩) fun h => ⟨_, h.2⟩
  obtain ⟨key, hfound⟩ := hkey
  obtain ⟨hr, hk, -⟩ := (findByModelKey_eq_some hv).mp hfound
  obtain ⟨s, hkey | hkey⟩ := hs row hr hk
  · exact ⟨(lookedUp_canonical hkey hv).mp h, s, .inl hkey⟩
  · obtain ⟨hrow, hnone⟩ := (lookedUp_legacy hkey hv).mp h
    exact ⟨hrow, s, .inr ⟨hkey, hnone⟩⟩

theorem LookedUp.mem_ratesInForce (hv : DistinctVersions rows)
    (hs : SpelledKeys rows) (hlimit : rows.length ≤ limit)
    (h : LookedUp rows asOf row) : row ∈ ratesInForce rows asOf limit := by
  obtain ⟨hrow, s, hkey | ⟨hkey, hnone⟩⟩ := h.found hv hs
  · exact (Pricing.mem_ratesInForce hv hlimit).mpr ⟨hrow, .inl (hkey ▸ s.canonicalKeyForm_key)⟩
  · refine (Pricing.mem_ratesInForce hv hlimit).mpr ⟨hrow, ?_⟩
    rw [hkey, s.canonicalKeyForm_legacyKey]
    by_cases hc : ':' ∈ s.model
    · exact .inl (if_pos hc)
    · exact .inr (by rw [if_neg hc]; exact hnone)

theorem lookedUp_of_mem_ratesInForce (hv : DistinctVersions rows)
    (hs : SpelledKeys rows) (hlimit : rows.length ≤ limit) (h : row ∈ ratesInForce rows asOf limit)
    (hcolon : ¬ ColonLegacyBeside rows asOf row.modelKey) : LookedUp rows asOf row := by
  obtain ⟨hrow, hcanon⟩ := (mem_ratesInForce hv hlimit).mp h
  obtain ⟨hr, hk, -⟩ := (findByModelKey_eq_some hv).mp hrow
  obtain ⟨s, hkey | hkey⟩ := hs row hr hk
  · exact (lookedUp_canonical hkey hv).mpr hrow
  · refine (lookedUp_legacy hkey hv).mpr ⟨hrow, ?_⟩
    rw [hkey, s.canonicalKeyForm_legacyKey] at hcanon
    by_cases hc : ':' ∈ s.model
    · by_contra hsome
      exact hcolon ⟨s, hkey, hc, Option.isSome_iff_ne_none.mpr hsome⟩
    · rw [if_neg hc] at hcanon
      exact hcanon.resolve_left (s.key_ne_legacyKey s)

theorem onPage_model (hv : DistinctVersions rows) (hs : SpelledKeys rows) (hlimit : 0 < limit)
    (hrow : row ∈ rows) (hk : row.kind = .model) (hle : row.effectiveAt ≤ asOf)
    (hcolon : ¬ ColonLegacyBeside rows asOf row.modelKey)
    (hunstarted : ¬ HiddenByUnstarted rows asOf row.modelKey) :
    OnPage rows asOf limit row ↔ LookedUp rows asOf row := by
  rw [onPage_iff hlimit, chosenStart_model hv hrow hk hle]
  obtain ⟨s, hkey | hkey⟩ := hs row hrow hk
  · rw [lookedUp_canonical hkey hv]
    exact ⟨fun h => h.2.2, fun h => ⟨hrow, hkey ▸ key_not_shadowed s, h⟩⟩
  · have hshadow := legacyKey_shadowed rows s ⟨row, hrow, hkey⟩
    rw [lookedUp_legacy hkey hv, hkey, hshadow]
    constructor
    · rintro ⟨-, hnot, hfound⟩
      refine ⟨hfound, ?_⟩
      by_contra hsome
      by_cases hc : ':' ∈ s.model
      · exact hcolon ⟨s, hkey, hc, Option.isSome_iff_ne_none.mpr hsome⟩
      · obtain ⟨r, hr⟩ := Option.ne_none_iff_exists'.mp hsome
        obtain ⟨hr, -, hrkey, -⟩ := (findByModelKey_eq_some hv).mp hr
        exact hnot ⟨hc, r, hr, hrkey⟩
    · rintro ⟨hfound, hnone⟩
      exact ⟨hrow, fun ⟨hc, hstored⟩ => hunstarted ⟨s, hkey, hc, hstored, hnone⟩, hfound⟩

/-- **The listings agree with settlement.**  Over any deployment rows stored in the two spellings,
at any instant: a row is in `ratesInForce` exactly when some lookup returns it, unless it is a
legacy row whose model name has a colon beside its canonical form, and every row a lookup returns is
there; a model row in effect is on `currentRatesPage` exactly when some lookup returns it, apart
from that legacy row and one hidden by a canonical form not in force; and what else the page lists
is each key's earliest scheduled row where nothing has taken effect, and the newest row in effect of
a search or fetch instance. -/
theorem current_rates_agree {rows : List ModelPricing} (hv : DistinctVersions rows)
    (hs : SpelledKeys rows) (asOf : Instant) : (∀ limit, rows.length ≤ limit →
      (∀ row, ¬ ColonLegacyBeside rows asOf row.modelKey →
        (row ∈ ratesInForce rows asOf limit ↔ LookedUp rows asOf row)) ∧
      ∀ row, LookedUp rows asOf row → row ∈ ratesInForce rows asOf limit) ∧
    ∀ limit, 0 < limit → ∀ row ∈ rows, (row.kind = .model → row.effectiveAt ≤ asOf →
        ¬ ColonLegacyBeside rows asOf row.modelKey → ¬ HiddenByUnstarted rows asOf row.modelKey →
        (OnPage rows asOf limit row ↔ LookedUp rows asOf row)) ∧
      (asOf < row.effectiveAt → (OnPage rows asOf limit row ↔
        row.modelKey ∉ keysShadowedByTheirCanonicalForm rows ∧
          ∀ r ∈ rows, r.kind = row.kind → r.modelKey = row.modelKey →
            row.effectiveAt ≤ r.effectiveAt)) ∧
      (row.kind ≠ .model → '/' ∉ row.modelKey → row.effectiveAt ≤ asOf →
        (OnPage rows asOf limit row ↔
          ∀ r ∈ rows, r.kind = row.kind → r.modelKey = row.modelKey → r.effectiveAt ≤ asOf →
            r.effectiveAt ≤ row.effectiveAt)) := by
  refine ⟨fun limit hlimit => ⟨fun row hcolon => ⟨fun h => ?_, fun h => ?_⟩, fun row h => ?_⟩,
    fun limit hlimit row hrow => ⟨fun hk hle hcolon hunstarted => ?_, fun hlt => ?_,
      fun _ hslash hle => ?_⟩⟩
  · exact lookedUp_of_mem_ratesInForce hv hs hlimit h hcolon
  · exact h.mem_ratesInForce hv hs hlimit
  · exact h.mem_ratesInForce hv hs hlimit
  · exact onPage_model hv hs hlimit hrow hk hle hcolon hunstarted
  · rw [onPage_iff hlimit, chosenStart_scheduled hrow hlt]
    exact ⟨fun h => h.2, fun h => ⟨hrow, h⟩⟩
  · rw [onPage_iff hlimit, chosenStart_effective hrow hle]
    exact ⟨fun h => h.2.2, fun h => ⟨hrow, fun hsh => hslash (mem_keysShadowed.mp hsh).2.1, h⟩⟩

/-- A selector for the samples below, `a` and `b`. -/
def sampleSelector : Selector where
  provider := ['a']
  model := ['b']
  provider_ne := by decide
  provider_plain := by simp

/-- A selector whose model name has a colon, `a` and `b:1`. -/
def colonSelector : Selector where
  provider := ['a']
  model := ['b', ':', '1']
  provider_ne := by decide
  provider_plain := by simp

def sampleRow (key : Key) (effectiveAt : Instant) : ModelPricing where
  modelKey := key
  effectiveAt := effectiveAt
  columns := { inputPricePerMillion := 1, outputPricePerMillion := 1 }

/-- Where the listings and the lookup part, at instant 10: a row that is only scheduled is on the
page, a legacy row in force is hidden by a canonical one from 20 on, and a legacy row with a colon in
its model name is in force beside the canonical row a lookup returns. -/
theorem current_rates_disagree :
    (OnPage [sampleRow sampleSelector.key 20] 10 1 (sampleRow sampleSelector.key 20) ∧
      ¬ LookedUp [sampleRow sampleSelector.key 20] 10 (sampleRow sampleSelector.key 20)) ∧
    (LookedUp [sampleRow sampleSelector.legacyKey 0, sampleRow sampleSelector.key 20] 10
        (sampleRow sampleSelector.legacyKey 0) ∧
      ¬ OnPage [sampleRow sampleSelector.legacyKey 0, sampleRow sampleSelector.key 20] 10 1
        (sampleRow sampleSelector.legacyKey 0)) ∧
    (sampleRow colonSelector.legacyKey 0 ∈ ratesInForce
        [sampleRow colonSelector.legacyKey 0, sampleRow colonSelector.key 0] 10 2 ∧
      ¬ LookedUp [sampleRow colonSelector.legacyKey 0, sampleRow colonSelector.key 0] 10
        (sampleRow colonSelector.legacyKey 0)) := by
  refine ⟨⟨?_, ?_⟩, ⟨?_, ?_⟩, ?_, ?_⟩
  · exact (onPage_iff (by decide)).mpr (by decide)
  · rw [lookedUp_canonical (s := sampleSelector) rfl (by unfold DistinctVersions; decide)]
    decide
  · exact ⟨sampleSelector, by decide⟩
  · rw [onPage_iff (by decide)]
    decide
  · exact (mem_ratesInForce (by unfold DistinctVersions; decide) (by decide)).mpr (by decide)
  · rw [lookedUp_legacy (s := colonSelector) rfl (by unfold DistinctVersions; decide)]
    decide

/-- A legacy key's version in force at instant 10, and one that is scheduled. -/
def sampleRows : List ModelPricing :=
  [sampleRow sampleSelector.legacyKey 0, sampleRow sampleSelector.legacyKey 20]

theorem current_rates_agree_sample :
    (sampleRow sampleSelector.legacyKey 0 ∈ ratesInForce sampleRows 10 2 ↔
      LookedUp sampleRows 10 (sampleRow sampleSelector.legacyKey 0)) ∧
    (OnPage sampleRows 10 1 (sampleRow sampleSelector.legacyKey 0) ↔
      LookedUp sampleRows 10 (sampleRow sampleSelector.legacyKey 0)) ∧
    ¬ OnPage sampleRows 10 1 (sampleRow sampleSelector.legacyKey 20) := by
  have hkeys : ∀ row ∈ sampleRows, row.modelKey = sampleSelector.legacyKey := by decide
  have hs : SpelledKeys sampleRows := fun row hrow _ => ⟨sampleSelector, .inr (hkeys row hrow)⟩
  have hv : DistinctVersions sampleRows := by unfold DistinctVersions; decide
  have hcanonical : ∀ s : Selector, ∀ row ∈ sampleRows, row.modelKey ≠ s.key := fun s row hrow heq =>
    s.key_ne_legacyKey sampleSelector (heq.symm.trans (hkeys row hrow))
  have hcolon : ¬ ColonLegacyBeside sampleRows 10 sampleSelector.legacyKey := by
    rintro ⟨s, -, -, hfound⟩
    obtain ⟨row, hrow⟩ := Option.isSome_iff_exists.mp hfound
    obtain ⟨hmem, -, hkey, -⟩ := (findByModelKey_eq_some hv).mp hrow
    exact hcanonical s row hmem hkey
  have hunstarted : ¬ HiddenByUnstarted sampleRows 10 sampleSelector.legacyKey :=
    fun ⟨s, _, _, ⟨row, hrow, heq⟩, _⟩ => hcanonical s row hrow heq
  have h := current_rates_agree hv hs 10
  refine ⟨(h.1 2 (by decide)).1 _ hcolon,
    (h.2 1 (by decide) _ List.mem_cons_self).1 rfl (by decide) hcolon hunstarted, fun hpage => ?_⟩
  have hscheduled := (h.2 1 (by decide) (sampleRow sampleSelector.legacyKey 20) (by decide)).2.1
    (by decide)
  exact absurd ((hscheduled.mp hpage).2 _ List.mem_cons_self rfl rfl) (by decide)

end Otari.Pricing

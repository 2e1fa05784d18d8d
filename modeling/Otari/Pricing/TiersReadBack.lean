import Otari.Pricing.ColumnsReadBack

/-!
# Pricing — TiersReadBack — the columns read out of a slot the columns were written into

`SlotOf` is a slot that says what columns say, whatever else its prices hold.  The overrides on
context become the tiers: a loop that writes under distinct keys is read off at once
(`foldl_replaceAt`), so the tiers of a slot are `carriedTiers` (`tiers_slot`), and the columns of a
block whose first priced slot is such a one are `carried` (`columnsFromRates_slot`).

`columnsFromRates_fresh` is the round trip of columns through a block of their own, and
`priceUsage_carried` that nothing costs otherwise after it.
-/

namespace Otari.PriceRates
open Documents Noted Rounding List
open Option hiding filter filter_filter map map_map
open Metered (PriceUnit Direction pricePer)
open Otari.Pricing (RateColumns PricingTier)

variable {narrow : ℚ → ℚ} {columns : RateColumns}

/-! ### One column -/

theorem published_pos (unit : PriceUnit) : 0 < published unit := by
  cases unit <;> norm_num [published, pricePer]

@[simp] theorem column_none (per : ℚ) : column per none = .ok none := rfl

theorem column_published {per : ℚ} (hper : 0 < per) {q : Option ℚ} (h : ∀ r ∈ q, FitsColumn r) :
    column per (q.map (· * per)) = .ok q := by
  cases q with
  | none => rfl
  | some r =>
    obtain ⟨hnonneg, hlimit, hscale⟩ := h r rfl
    have hread : quantizeEven columnPlaces (r * per / per) = r := by
      rw [mul_div_cancel_right₀ _ hper.ne', quantizeEven_of_atScale hscale]
    have hpositive : ¬ (r = 0 ∧ 0 < r * per) := by
      rintro ⟨rfl, hr⟩
      simp at hr
    rw [map_some, column, hread, if_neg (not_not.mpr ⟨hnonneg, hlimit⟩), if_neg hpositive]

/-! ### Writing under distinct keys -/

section
variable {α : Type} (base : Rates) (key : α → ℤ) (f : α → Rates → Rates)

/-- What the writes of a list make of an entry. -/
def replaced (l : List α) (tier : ℤ × Rates) : ℤ × Rates :=
  match l.find? fun a => key a = tier.1 with
  | some a => (tier.1, f a tier.2)
  | none => tier

variable {l : List α} {tier : ℤ × Rates}

variable {key f} in
theorem replaced_of_not_mem (h : tier.1 ∉ l.map key) : replaced key f l tier = tier := by
  have hnone : (l.find? fun a => key a = tier.1) = none := by
    refine List.find?_eq_none.mpr fun a ha => ?_
    simpa using fun e : key a = tier.1 => h (e ▸ mem_map_of_mem ha)
  rw [replaced, hnone]

variable {key f} in
theorem replaced_cons_self {a : α} (h : key a = tier.1) :
    replaced key f (a :: l) tier = (tier.1, f a tier.2) := by
  rw [replaced, List.find?_cons_of_pos (by simpa using h)]

variable {key f} in
theorem replaced_cons_of_ne {a : α} (h : key a ≠ tier.1) :
    replaced key f (a :: l) tier = replaced key f l tier := by
  rw [replaced, replaced, List.find?_cons_of_neg (by simpa using h)]

/-- **The loop in one step.**  An entry that is there is replaced where it stands, and the others
are appended in the order of their writes. -/
theorem foldl_replaceAt (h : (l.map key).Nodup) (tiers : List (ℤ × Rates)) :
    l.foldl (fun tiers a => replaceAt base (key a) (f a) tiers) tiers = tiers.map (replaced key f l)
        ++ (l.filter fun a => key a ∉ tiers.map Prod.fst).map fun a => (key a, f a base) := by
  induction l generalizing tiers with
  | nil =>
    have hid : ∀ tier ∈ tiers, replaced key f [] tier = tier := fun tier _ => rfl
    rw [map_congr_left hid]
    simp
  | cons a rest ih =>
    rw [map_cons, nodup_cons] at h
    rw [foldl_cons, ih h.2]
    by_cases hmem : key a ∈ tiers.map Prod.fst
    · have hkeys : (replaceAt base (key a) (f a) tiers).map Prod.fst = tiers.map Prod.fst := by
        rw [replaceAt, if_pos hmem, map_map]
        refine map_congr_left fun tier _ => ?_
        dsimp only [Function.comp_apply]
        split <;> rfl
      have hentries : (replaceAt base (key a) (f a) tiers).map (replaced key f rest) =
          tiers.map (replaced key f (a :: rest)) := by
        rw [replaceAt, if_pos hmem, map_map]
        refine map_congr_left fun tier _ => ?_
        dsimp only [Function.comp_apply]
        by_cases he : tier.1 = key a
        · rw [if_pos he, replaced_cons_self he.symm, replaced_of_not_mem (he ▸ h.1)]
        · rw [if_neg he, replaced_cons_of_ne fun e => he e.symm]
      rw [hkeys, hentries, filter_cons_of_neg (by simpa using hmem)]
    · have hnew : replaceAt base (key a) (f a) tiers = tiers ++ [(key a, f a base)] := if_neg hmem
      have hentries : tiers.map (replaced key f rest) =
          tiers.map (replaced key f (a :: rest)) := by
        refine map_congr_left fun tier htier => ?_
        have hne : key a ≠ tier.1 := by
          intro e
          exact hmem (e ▸ mem_map_of_mem htier)
        rw [replaced_cons_of_ne hne]
      have hfilter : (rest.filter fun b => key b ∉ (tiers ++ [(key a, f a base)]).map Prod.fst) =
          rest.filter fun b => key b ∉ tiers.map Prod.fst := by
        refine filter_congr fun b hb => ?_
        have hne : key b ≠ key a := fun e => h.1 (e ▸ mem_map_of_mem hb)
        simp [hne]
      rw [hnew, hfilter, map_append, hentries, map_singleton,
        replaced_of_not_mem h.1, filter_cons_of_pos (by simpa using hmem), map_cons,
        append_assoc, singleton_append]

end

/-! ### The tiers of a slot -/

/-- What the first price's override of a tier replaces. -/
def moveGiven (per : ℚ) (tier : PricingTier) (rates : Rates) : Rates where
  input := (tier.inputPricePerMillion.map (· * per)).or rates.input
  output := rates.output
  cacheRead := (tier.cacheReadPricePerMillion.map (· * per)).or rates.cacheRead
  cacheWrite := (tier.cacheWritePricePerMillion.map (· * per)).or rates.cacheWrite

/-- What the second price's override of a tier replaces. -/
def moveMade (per : ℚ) (tier : PricingTier) (rates : Rates) : Rates :=
  { rates with output := (tier.outputPricePerMillion.map (· * per)).or rates.output }

theorem contextSize_fromContext {threshold : ℤ} (h : 0 < threshold) :
    contextSize (fromContext threshold) = some threshold := by
  have hnames : namesContext (fromContext threshold) = true := by
    simp [namesContext, fromContext]
  have hsize : tierSize (.num (threshold : ℚ)) = some threshold := by
    have hpos : (0 : ℚ) < threshold := by exact_mod_cast h
    simp [tierSize, hpos]
  rw [contextSize, if_pos hnames]
  simp [fromContext, get_cons, hsize]

@[simp] theorem columnCache_read (read write : Option ℚ) (per : ℚ) :
    ((columnCache read write per).bind fun cache => cache.read) = read.map (· * per) := by
  cases read <;> cases write <;> rfl

@[simp] theorem columnCache_write (read write : Option ℚ) (per : ℚ) :
    cacheWrite (columnCache read write per) none = write.map (· * per) := by
  cases read <;> cases write <;> rfl

theorem givenOverride_cases (per : ℚ) (tier : PricingTier) :
    (movesGiven tier = false ∧ givenOverride per tier = none) ∨
      (movesGiven tier = true ∧ ∃ o, givenOverride per tier = some o ∧
        o.when = fromContext tier.minInputTokens ∧ replaceGiven o = moveGiven per tier) := by
  have hmoves : movesGiven tier = true ↔ (tier.inputPricePerMillion.map (· * per)).isSome ∨
      (columnCache tier.cacheReadPricePerMillion tier.cacheWritePricePerMillion per).isSome := by
    unfold movesGiven
    cases tier.inputPricePerMillion <;> cases tier.cacheReadPricePerMillion <;>
      cases tier.cacheWritePricePerMillion <;> simp [columnCache]
  unfold givenOverride
  dsimp only
  split
  · rename_i h
    refine .inr ⟨hmoves.mpr h, _, rfl, rfl, ?_⟩
    funext rates
    simp [replaceGiven, moveGiven]
  · rename_i h
    exact .inl ⟨by simpa using fun e => h (hmoves.mp e), rfl⟩

variable {tiers : List PricingTier}

theorem foldl_given (per : ℚ) (base : Rates)
    (hpos : ∀ tier ∈ tiers, 0 < tier.minInputTokens) (acc : List (ℤ × Rates)) :
    (tiers.filterMap (givenOverride per)).foldl (addTier base replaceGiven) acc =
      (tiers.filter movesGiven).foldl
        (fun acc tier => replaceAt base tier.minInputTokens (moveGiven per tier) acc) acc := by
  induction tiers generalizing acc with
  | nil => rfl
  | cons tier rest ih =>
    have hrest := ih fun t ht => hpos t (mem_cons_of_mem _ ht)
    rcases givenOverride_cases per tier with ⟨hmoves, hnone⟩ | ⟨hmoves, o, hsome, hwhen, hreplace⟩
    · rw [filterMap_cons_none hnone, filter_cons_of_neg (by simp [hmoves]), hrest]
    · have hsize : contextSize o.when = some tier.minInputTokens := by
        rw [hwhen, contextSize_fromContext (hpos tier mem_cons_self)]
      have hadd : addTier base replaceGiven acc o =
          replaceAt base tier.minInputTokens (moveGiven per tier) acc := by
        rw [addTier, hsize, hreplace]
      rw [filterMap_cons_some hsome, filter_cons_of_pos hmoves, foldl_cons,
        foldl_cons, hadd, hrest]

theorem foldl_made (per : ℚ) (base : Rates)
    (hpos : ∀ tier ∈ tiers, 0 < tier.minInputTokens) (acc : List (ℤ × Rates)) :
    (tiers.filterMap (madeOverride per)).foldl (addTier base replaceMade) acc =
      (tiers.filter fun tier => tier.outputPricePerMillion.isSome).foldl
        (fun acc tier => replaceAt base tier.minInputTokens (moveMade per tier) acc) acc := by
  induction tiers generalizing acc with
  | nil => rfl
  | cons tier rest ih =>
    have hrest := ih fun t ht => hpos t (mem_cons_of_mem _ ht)
    cases houtput : tier.outputPricePerMillion with
    | none =>
      have hnone : madeOverride per tier = none := by simp [madeOverride, houtput]
      rw [filterMap_cons_none hnone, filter_cons_of_neg (by simp [houtput]), hrest]
    | some output =>
      have hsome : madeOverride per tier = some
          { when := fromContext tier.minInputTokens, price := some (output * per) } := by
        simp [madeOverride, houtput]
      have hadd : addTier base replaceMade acc
            { when := fromContext tier.minInputTokens, price := some (output * per) } =
          replaceAt base tier.minInputTokens (moveMade per tier) acc := by
        rw [addTier, contextSize_fromContext (hpos tier mem_cons_self)]
        dsimp only
        congr 1
        funext rates
        simp [replaceMade, moveMade, houtput]
      rw [filterMap_cons_some hsome, filter_cons_of_pos (by simp [houtput]),
        foldl_cons, foldl_cons, hadd, hrest]

theorem foldl_kept {base : Rates} {f : Override → Rates → Rates} {kept : List Override}
    (h : ∀ o ∈ kept, contextSize o.when = none) (acc : List (ℤ × Rates)) :
    kept.foldl (addTier base f) acc = acc := by
  induction kept with
  | nil => rfl
  | cons o rest ih =>
    rw [foldl_cons, addTier, h o mem_cons_self]
    exact ih fun o' ho' => h o' (mem_cons_of_mem _ ho')

def slotBase (columns : RateColumns) : Rates where
  input := some (columns.inputPricePerMillion * published columns.unit)
  output :=
    if pricesBoth columns.unit then
      some (columns.outputPricePerMillion * published columns.unit)
    else none

def movedRates (columns : RateColumns) (tier : PricingTier) : Rates :=
  let given := moveGiven (published columns.unit) tier (slotBase columns)
  if pricesBoth columns.unit then moveMade (published columns.unit) tier given else given

variable {tier : PricingTier}

theorem moveGiven_of_not {per : ℚ} {rates : Rates}
    (h : movesGiven tier = false) : moveGiven per tier rates = rates := by
  simp only [movesGiven, Bool.or_eq_false_iff, isSome_eq_false_iff,
    isNone_iff_eq_none] at h
  simp [moveGiven, h]

theorem mem_keys_iff (h : (tiers.map (·.minInputTokens)).Nodup)
    (ht : tier ∈ tiers) (p : PricingTier → Bool) :
    tier.minInputTokens ∈ (tiers.filter p).map (·.minInputTokens) ↔ p tier = true := by
  constructor
  · intro hmem
    obtain ⟨other, hother, hkey⟩ := mem_map.mp hmem
    obtain ⟨hin, hp⟩ := mem_filter.mp hother
    rwa [← inj_on_of_nodup_map h hin ht hkey]
  · intro hp
    exact mem_map_of_mem (mem_filter.mpr ⟨ht, hp⟩)

theorem nodup_filter_keys (h : (tiers.map (·.minInputTokens)).Nodup)
    (p : PricingTier → Bool) : ((tiers.filter p).map (·.minInputTokens)).Nodup :=
  h.sublist (filter_sublist.map _)

theorem replaced_made {per : ℚ} (h : (tiers.map (·.minInputTokens)).Nodup) (ht : tier ∈ tiers)
    (rates : Rates) : replaced (·.minInputTokens) (moveMade per)
        (tiers.filter fun tier => tier.outputPricePerMillion.isSome) (tier.minInputTokens, rates) =
      (tier.minInputTokens, moveMade per tier rates) := by
  by_cases houtput : tier.outputPricePerMillion.isSome
  · unfold replaced
    cases hfind : (tiers.filter fun tier => tier.outputPricePerMillion.isSome).find?
        fun other => other.minInputTokens = tier.minInputTokens with
    | none =>
      have hin : tier ∈ tiers.filter fun tier => tier.outputPricePerMillion.isSome :=
        mem_filter.mpr ⟨ht, houtput⟩
      simpa using List.find?_eq_none.mp hfind tier hin
    | some other =>
      have hin := (mem_filter.mp (mem_of_find?_eq_some hfind)).1
      have hkey : other.minInputTokens = tier.minInputTokens := by
        simpa using List.find?_some hfind
      rw [inj_on_of_nodup_map h hin ht hkey]
  · have hnone : tier.outputPricePerMillion = none := by simpa using houtput
    rw [replaced_of_not_mem]
    · simp [moveMade, hnone]
    · exact fun hmem => houtput ((mem_keys_iff h ht _).mp hmem)

/-- A price that says what the given columns say, whatever else it holds. -/
structure GivenOf (columns : RateColumns) (p : UnitPrice) : Prop where
  price : p.price = some (columns.inputPricePerMillion * published columns.unit)
  unit : p.unit = some (unitName columns.unit)
  cacheRead : (p.cache.bind fun cache => cache.read)
    = columns.cacheReadPricePerMillion.map (· * published columns.unit)
  overrides : ∃ kept, (∀ o ∈ kept, contextSize o.when = none) ∧
    p.overrides = kept ++ columns.pricingTiers.filterMap (givenOverride (published columns.unit))

/-- And one that says what the output column says. -/
structure MadeOf (columns : RateColumns) (p : UnitPrice) : Prop where
  price : p.price = some (columns.outputPricePerMillion * published columns.unit)
  unit : p.unit = some (unitName columns.unit)
  overrides : ∃ kept, (∀ o ∈ kept, contextSize o.when = none) ∧
    p.overrides = kept ++ columns.pricingTiers.filterMap (madeOverride (published columns.unit))

/-- **The prices of a slot that says what the columns say.** -/
structure SlotOf (columns : RateColumns) (prices : Option UnitPrice × Option UnitPrice) : Prop where
  given : ∃ p, prices.1 = some p ∧ GivenOf columns p
  made : if pricesBoth columns.unit then ∃ p, prices.2 = some p ∧ MadeOf columns p
    else prices.2 = none

theorem tiers_slot (hc : Carriable narrow columns) {prices : Option UnitPrice × Option UnitPrice}
    (h : SlotOf columns prices) : (directionCost prices.1 prices.2).tiers =
      (columns.pricingTiers.filter movesGiven
        ++ if pricesBoth columns.unit then columns.pricingTiers.filter movesMadeOnly else []).map
          fun tier => (tier.minInputTokens, movedRates columns tier) := by
  obtain ⟨⟨p, hp, hgiven⟩, hmade⟩ := h
  obtain ⟨prices₁, prices₂⟩ := prices
  obtain rfl : prices₁ = some p := hp
  obtain ⟨kept, hkept, hover⟩ := hgiven.overrides
  have hkeys := hc.distinct
  have hfirst : ∀ base : Rates, p.overrides.foldl (addTier base replaceGiven) [] =
      (columns.pricingTiers.filter movesGiven).map fun tier =>
        (tier.minInputTokens, moveGiven (published columns.unit) tier base) := by
    intro base
    rw [hover, foldl_append, foldl_kept hkept, foldl_given _ _ hc.positive,
      foldl_replaceAt base (fun tier : PricingTier => tier.minInputTokens)
        (moveGiven (published columns.unit)) (nodup_filter_keys hkeys movesGiven)]
    simp
  by_cases hboth : pricesBoth columns.unit = true
  · rw [if_pos hboth] at hmade
    obtain ⟨m, hm, hmade⟩ := hmade
    obtain rfl : prices₂ = some m := hm
    obtain ⟨keptMade, hkeptMade, hoverMade⟩ := hmade.overrides
    have hbase : ({ input := p.price, output := m.price } : Rates) = slotBase columns := by
      rw [hgiven.price, hmade.price, slotBase, if_pos hboth]
    have hmoved : ∀ tier, movedRates columns tier =
        moveMade (published columns.unit) tier
          (moveGiven (published columns.unit) tier (slotBase columns)) := fun tier => if_pos hboth
    -- the second price's writes: on the tiers there are, then the new ones
    have hthere : ((columns.pricingTiers.filter movesGiven).map fun tier =>
          (tier.minInputTokens, moveGiven (published columns.unit) tier (slotBase columns))).map
          (replaced (·.minInputTokens) (moveMade (published columns.unit))
            (columns.pricingTiers.filter fun tier => tier.outputPricePerMillion.isSome)) =
        (columns.pricingTiers.filter movesGiven).map fun tier =>
          (tier.minInputTokens, movedRates columns tier) := by
      rw [map_map]
      refine map_congr_left fun tier htier => ?_
      rw [Function.comp_apply, replaced_made hkeys (mem_filter.mp htier).1, hmoved]
    have hnew : ((columns.pricingTiers.filter fun tier => tier.outputPricePerMillion.isSome).filter
          fun tier => tier.minInputTokens ∉
            (columns.pricingTiers.filter movesGiven).map (·.minInputTokens)) =
        columns.pricingTiers.filter movesMadeOnly := by
      rw [filter_filter]
      refine filter_congr fun tier htier => ?_
      have hiff := mem_keys_iff hkeys htier movesGiven
      rw [movesMadeOnly]
      cases hmoves : movesGiven tier <;> simp [hiff, hmoves]
    have halone : (columns.pricingTiers.filter movesMadeOnly).map (fun tier =>
          (tier.minInputTokens, moveMade (published columns.unit) tier (slotBase columns))) =
        (columns.pricingTiers.filter movesMadeOnly).map fun tier =>
          (tier.minInputTokens, movedRates columns tier) := by
      refine map_congr_left fun tier htier => ?_
      have hnot : movesGiven tier = false := by
        have := (mem_filter.mp htier).2
        simp only [movesMadeOnly, Bool.and_eq_true, Bool.not_eq_true'] at this
        exact this.1
      rw [hmoved, moveGiven_of_not hnot]
    have hkeysGiven : ((columns.pricingTiers.filter movesGiven).map fun tier =>
          (tier.minInputTokens, moveGiven (published columns.unit) tier (slotBase columns))).map
          Prod.fst = (columns.pricingTiers.filter movesGiven).map (·.minInputTokens) := by
      rw [map_map]
      rfl
    unfold directionCost
    simp only [map_some, getD_some, bind_some]
    rw [hbase, hfirst, hoverMade, foldl_append, foldl_kept hkeptMade,
      foldl_made _ _ hc.positive,
      foldl_replaceAt (slotBase columns) (fun tier : PricingTier => tier.minInputTokens)
        (moveMade (published columns.unit)) (nodup_filter_keys hkeys _),
      hthere, hkeysGiven, hnew, halone, if_pos hboth, map_append]
  · rw [if_neg hboth] at hmade
    obtain rfl : prices₂ = none := hmade
    have hbase : ({ input := p.price, output := none } : Rates) = slotBase columns := by
      rw [hgiven.price, slotBase, if_neg hboth]
    have hmoved : ∀ tier, movedRates columns tier =
        moveGiven (published columns.unit) tier (slotBase columns) := fun tier => if_neg hboth
    unfold directionCost
    simp only [map_some, map_none, getD_some, getD_none,
      bind_some, bind_none, foldl_nil]
    rw [hbase, hfirst, if_neg hboth, append_nil]
    simp only [hmoved]

/-! ### The columns of a slot -/

theorem mem_tierRates {q : ℚ} :
    q ∈ tierRates tier ↔ q ∈ tier.inputPricePerMillion ∨ q ∈ tier.outputPricePerMillion ∨
      q ∈ tier.cacheReadPricePerMillion ∨ q ∈ tier.cacheWritePricePerMillion := by
  simp [tierRates]

theorem tierColumns_moved (hc : Carriable narrow columns) (ht : tier ∈ columns.pricingTiers) :
    tierColumns narrow (published columns.unit) (tier.minInputTokens, movedRates columns tier) =
      .ok (filled columns tier) := by
  have hper := published_pos columns.unit
  have hfits := hc.tiers tier ht
  have hshown : ∀ q ∈ tierRates tier, narrow q = q := fun q hq =>
    hc.shown (ne_nil_of_mem ht) q
      (mem_cons_of_mem _ (mem_cons_of_mem _ (mem_flatMap.mpr ⟨tier, ht, hq⟩)))
  have hbaseIn : narrow columns.inputPricePerMillion = columns.inputPricePerMillion :=
    hc.shown (ne_nil_of_mem ht) _ mem_cons_self
  have hbaseOut : narrow columns.outputPricePerMillion = columns.outputPricePerMillion :=
    hc.shown (ne_nil_of_mem ht) _ (mem_cons_of_mem _ mem_cons_self)
  -- what is read of a rate, and what a float shows of it
  have hown : ∀ {q : Option ℚ}, (∀ r ∈ q, r ∈ tierRates tier) →
      column (published columns.unit) (q.map (· * published columns.unit)) = .ok q ∧
        q.map narrow = q := by
    intro q hq
    refine ⟨column_published hper fun r hr => hfits r (hq r hr), ?_⟩
    cases q with
    | none => rfl
    | some r => rw [map_some, hshown r (hq r rfl)]
  have hor : ∀ {q : Option ℚ} {b : ℚ}, (∀ r ∈ q, r ∈ tierRates tier) → FitsColumn b →
      narrow b = b →
      column (published columns.unit)
          ((q.map (· * published columns.unit)).or (some (b * published columns.unit)))
        = .ok (q.or (some b)) ∧ (q.or (some b)).map narrow = q.or (some b) := by
    intro q b hq hb hnarrow
    cases q with
    | none =>
      refine ⟨column_published hper (q := some b) fun r hr => ?_, ?_⟩
      · exact Option.some.inj hr ▸ hb
      · rw [none_or, map_some, hnarrow]
    | some r => exact hown hq
  have hin := hor (fun r hr => mem_tierRates.mpr (.inl hr)) hc.input hbaseIn
  have hread := hown fun r hr => mem_tierRates.mpr (.inr (.inr (.inl hr)))
  have hwrite := hown fun r hr => mem_tierRates.mpr (.inr (.inr (.inr hr)))
  by_cases hboth : pricesBoth columns.unit = true
  · have hout := hor (fun r hr => mem_tierRates.mpr (.inr (.inl hr))) hc.output hbaseOut
    have hmoved : movedRates columns tier =
        moveMade (published columns.unit) tier
          (moveGiven (published columns.unit) tier (slotBase columns)) := if_pos hboth
    rw [hmoved]
    simp only [tierColumns, moveMade, moveGiven, slotBase, if_pos hboth, or_none, hin.1,
      hout.1, hread.1, hwrite.1, filled, bind, Except.bind, pure, Except.pure, hin.2, hout.2,
      hread.2, hwrite.2]
  · have hmoved : movedRates columns tier =
        moveGiven (published columns.unit) tier (slotBase columns) := if_neg hboth
    rw [hmoved]
    simp only [tierColumns, moveGiven, slotBase, if_neg hboth, or_none, hin.1,
      column_none, hread.1, hwrite.1, filled, bind, Except.bind, pure, Except.pure, hin.2,
      hread.2, hwrite.2, map_none]

/-- **The columns of such a slot.**  The cache write price may stand in the explicit cache. -/
theorem columnsOf_slot (hc : Carriable narrow columns)
    {p : UnitPrice} {made : Option UnitPrice} (h : SlotOf columns (some p, made)) :
    columnsOf narrow (directionCost (some p) made) columns.unit =
      (column (published columns.unit) (cacheWrite p.cache p.explicitCache)).map fun write =>
        { carried columns with cacheWritePricePerMillion := write } := by
  have hper := published_pos columns.unit
  have htiers := tiers_slot hc h
  obtain ⟨⟨p', hp, hgiven⟩, hmade⟩ := h
  obtain rfl : p = p' := Option.some.inj hp
  have hin : column (published columns.unit) p.price = .ok (some columns.inputPricePerMillion) := by
    rw [hgiven.price]
    exact column_published hper (q := some _) fun r hr => Option.some.inj hr ▸ hc.input
  have hread : column (published columns.unit) (p.cache.bind fun cache => cache.read) =
      .ok columns.cacheReadPricePerMillion := by
    rw [hgiven.cacheRead]
    exact column_published hper hc.cacheRead
  have hout : ∃ output, column (published columns.unit) (made.bind fun p => p.price) = .ok output ∧
      output.getD 0 = (carried columns).outputPricePerMillion := by
    unfold carried
    dsimp only at hmade ⊢
    by_cases hboth : pricesBoth columns.unit = true
    · rw [if_pos hboth] at hmade ⊢
      obtain ⟨m, rfl, hm⟩ := hmade
      refine ⟨some columns.outputPricePerMillion, ?_, rfl⟩
      rw [bind_some, hm.price]
      exact column_published hper (q := some _) fun r hr => Option.some.inj hr ▸ hc.output
    · rw [if_neg hboth] at hmade ⊢
      exact ⟨none, by rw [hmade]; rfl, rfl⟩
  obtain ⟨output, hout, hgetD⟩ := hout
  have hmap : (directionCost (some p) made).tiers.mapM (tierColumns narrow (published columns.unit))
      = .ok (carriedTiers columns) := by
    rw [htiers, carriedTiers, mapM_map]
    refine mapM_ok fun tier htier => tierColumns_moved hc ?_
    rcases mem_append.mp htier with hmem | hmem
    · exact (mem_filter.mp hmem).1
    · split at hmem
      · exact (mem_filter.mp hmem).1
      · cases hmem
  unfold columnsOf
  dsimp only
  rw [hmap]
  simp only [directionCost, bind_some, hin, hout, hread, bind, Except.bind]
  cases column (published columns.unit) (cacheWrite p.cache p.explicitCache) with
  | error e => rfl
  | ok write =>
    simp only [Except.map, pure, Except.pure, carried, getD_some, hgetD]

/-! ### The columns of a block -/

def earlier (unit : PriceUnit) : List Slot := readOrder.takeWhile (· ≠ slots unit)

def Unpriced (prices : Option UnitPrice × Option UnitPrice) : Prop :=
  (present prices).filter (fun p => p.price.isSome) = []

theorem readOrder_split (unit : PriceUnit) :
    ∃ later, readOrder = earlier unit ++ slots unit :: later := by
  cases unit <;> exact ⟨_, rfl⟩

theorem columnsOfSlots_skip {pricing : Pricing} {before : List Slot}
    (h : ∀ slot ∈ before, Unpriced (pricesIn pricing slot)) (rest : List Slot) :
    columnsOfSlots narrow pricing (before ++ rest) = columnsOfSlots narrow pricing rest := by
  induction before with
  | nil => rfl
  | cons slot others ih =>
    have hslot : (present (pricesIn pricing slot)).filter (fun p => p.price.isSome) = [] :=
      h slot mem_cons_self
    rw [cons_append, columnsOfSlots, hslot]
    exact ih fun s hs => h s (mem_cons_of_mem _ hs)

theorem columnsOfSlots_slot {pricing : Pricing} {slot : Slot} {rest : List Slot}
    (h : SlotOf columns (pricesIn pricing slot)) : columnsOfSlots narrow pricing (slot :: rest) =
      columnsOf narrow (directionCost (pricesIn pricing slot).1 (pricesIn pricing slot).2)
        columns.unit := by
  obtain ⟨⟨p, hp, hgiven⟩, hmade⟩ := h
  have hall : ∀ q ∈ present (pricesIn pricing slot), q.unit = some (unitName columns.unit) := by
    intro q hq
    rw [present, hp, toList_some, singleton_append, mem_cons] at hq
    rcases hq with rfl | hq
    · exact hgiven.unit
    · split at hmade
      · obtain ⟨m, hm, hmade⟩ := hmade
        rw [hm, toList_some, mem_singleton] at hq
        exact hq ▸ hmade.unit
      · rw [hmade] at hq
        cases hq
  have hunits : ∀ q ∈ present (pricesIn pricing slot), unitOf q = unitName columns.unit :=
    fun q hq => by rw [unitOf, hall q hq, getD_some]
  have hin : p ∈ present (pricesIn pricing slot) := by simp [present, hp]
  have hfirst : ∃ others, (present (pricesIn pricing slot)).filter (fun q => q.price.isSome)
      = p :: others := by
    rw [present, hp, toList_some, singleton_append,
      filter_cons_of_pos (by simp [hgiven.price])]
    exact ⟨_, rfl⟩
  obtain ⟨others, hfirst⟩ := hfirst
  rw [columnsOfSlots, hfirst]
  simp only [hunits p hin, unitNamed_unitName]
  exact if_neg (by simpa using fun q hq _ => hunits q hq)

/-- **The columns of a block whose first priced slot says what columns say.** -/
theorem columnsFromRates_slot (hc : Carriable narrow columns) {block : Fields}
    (hclean : Clean (readRates block))
    (hearlier : ∀ slot ∈ earlier columns.unit, Unpriced (pricesUnder block slot))
    (h : SlotOf columns (pricesUnder block (slots columns.unit))) :
    ∃ p, (pricesUnder block (slots columns.unit)).1 = some p ∧ columnsFromRates narrow block =
        (column (published columns.unit) (cacheWrite p.cache p.explicitCache)).map fun write =>
          { carried columns with cacheWritePricePerMillion := write } := by
  obtain ⟨later, horder⟩ := readOrder_split columns.unit
  have hmem : ∀ slot ∈ earlier columns.unit, slot ∈ readOrder := fun slot hs =>
    horder ▸ mem_append_left _ hs
  have hslot := pricesIn_readRates hclean (slots_mem_readOrder columns.unit)
  have hbefore : ∀ slot ∈ earlier columns.unit,
      Unpriced (pricesIn (readRates block).value slot) := fun slot hs => by
    rw [pricesIn_readRates hclean (hmem slot hs)]
    exact hearlier slot hs
  have hnotes : (readRates block).notes = [] := hclean
  have hread : columnsFromRates narrow block = columnsFromPricing narrow (readRates block).value := by
    unfold columnsFromRates
    dsimp only
    rw [hnotes]
    rfl
  rw [← hslot] at h
  rw [hread, columnsFromPricing, horder, columnsOfSlots_skip hbefore, columnsOfSlots_slot h, hslot]
  rw [hslot] at h
  obtain ⟨p, hp, -⟩ := h.given
  refine ⟨p, hp, ?_⟩
  have hpair : pricesUnder block (slots columns.unit)
      = (some p, (pricesUnder block (slots columns.unit)).2) := Prod.ext hp rfl
  rw [hp]
  exact columnsOf_slot hc (hpair ▸ h)

theorem slotOf_fresh (columns : RateColumns) :
    SlotOf columns (pricesUnder (ratesFromColumns columns) (slots columns.unit)) := by
  rw [pricesUnder_fresh]
  refine ⟨⟨_, rfl, rfl, rfl, columnCache_read _ _ _, [], by simp, rfl⟩, ?_⟩
  by_cases hboth : pricesBoth columns.unit = true
  · rw [if_pos hboth]
    exact ⟨_, if_pos hboth, rfl, rfl, [], by simp, rfl⟩
  · rw [if_neg hboth]
    exact if_neg hboth

theorem modality_ne_of_earlier {unit : PriceUnit} {slot : Slot} (h : slot ∈ earlier unit) :
    slot.modality ≠ (slots unit).modality := by
  revert slot
  cases unit <;> decide

/-- **Columns through a block of their own** come back as `carried`. -/
theorem columnsFromRates_fresh (hc : Carriable narrow columns) :
    columnsFromRates narrow (ratesFromColumns columns) = .ok (carried columns) := by
  have hearlier : ∀ slot ∈ earlier columns.unit,
      Unpriced (pricesUnder (ratesFromColumns columns) slot) := by
    intro slot hslot
    obtain ⟨later, horder⟩ := readOrder_split columns.unit
    have hmem : slot ∈ readOrder := horder ▸ mem_append_left _ hslot
    rw [pricesUnder_fresh_of_ne columns hmem (modality_ne_of_earlier hslot)]
    rfl
  obtain ⟨p, hp, hread⟩ :=
    columnsFromRates_slot hc (clean_fresh columns) hearlier (slotOf_fresh columns)
  rw [pricesUnder_fresh] at hp
  obtain rfl := Option.some.inj hp
  have hwrite : cacheWrite (givenPrice columns).cache (givenPrice columns).explicitCache =
      columns.cacheWritePricePerMillion.map (· * published columns.unit) :=
    columnCache_write _ _ _
  rw [hread, hwrite, column_published (published_pos _) hc.cacheWrite]
  rfl

end Otari.PriceRates

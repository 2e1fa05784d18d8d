import Otari.Pricing.TiersReadBack

/-!
# Pricing — MergedPrice — a price rewritten from columns

`_merged_price` of a readable price does not fail (`mergedPrice_ok`): the fresh price where the old
is none or in another unit, else `rewritten`.  What comes of it is readable, says what the fresh
price says (`Says`) and keeps the rest of the old (`KeepsPrice`).
-/

namespace Otari.PriceRates
open Documents Noted
open List
open Metered (PriceUnit Direction)
open Otari.Pricing (RateColumns PricingTier)

/-! ### Rewriting -/

/-- The items of `overrides` that are not on context. -/
def keptItem : Json → Bool
  | .obj o => !onContext o
  | _ => false

def rewrittenCache (old fresh : Fields) : Fields :=
  update (without ["read", "write"] (cacheOf old)) (cacheOf fresh)

def rewrittenOverrides (old fresh : Fields) : List Json :=
  (overridesOf old).filter keptItem ++ overridesOf fresh

/-- What `rewrittenPrice` makes of a readable price. -/
def rewritten (old fresh : Fields) : Fields :=
  let merged := setSome (setSome (without ["price", "unit"] old)
    "price" (get fresh "price")) "unit" (get fresh "unit")
  let merged := setSome (without ["cache"] merged) "cache" (nonempty (rewrittenCache old fresh))
  setSome (without ["overrides"] merged) "overrides"
    (if rewrittenOverrides old fresh = [] then none
     else some (.arr (rewrittenOverrides old fresh)))

/-- What `mergedPrice` makes of a price that is none or readable. -/
def mergedFields (old : Option Json) (fresh : Fields) : Fields :=
  match old with
  | some (.obj old) =>
    if old = [] ∨ !sameUnit (documentUnit old) (documentUnit fresh) then fresh
    else rewritten old fresh
  | _ => fresh

def CleanOld (units : List String) (old : Option Json) : Prop :=
  ∀ v ∈ old, v = .null ∨ ∃ entry, v = .obj entry ∧ CleanPrice units entry

section
variable {units : List String} {old fresh : Fields}

theorem cacheEntries_ok (h : CleanPrice units old) : cacheEntries old = .ok (cacheOf old) := by
  unfold cacheEntries cacheOf
  cases hget : get old "cache" with
  | none => rfl
  | some v =>
    rcases h.caches v hget with rfl | ⟨cache, rfl, -⟩ <;> rfl

theorem overridesOffContext_ok (h : CleanPrice units old) :
    overridesOffContext old = .ok ((overridesOf old).filter keptItem) := by
  unfold overridesOffContext overridesOf
  cases hget : get old "overrides" with
  | none => rfl
  | some v =>
    rcases h.overrides v hget with rfl | ⟨items, rfl, hitems⟩
    · rfl
    · have hobj : (items.all fun | .obj _ => true | _ => false) = true := by
        refine all_eq_true.mpr fun item hitem => ?_
        obtain ⟨fields, rfl, -⟩ := hitems item hitem
        rfl
      exact if_pos hobj

theorem rewrittenPrice_ok (h : CleanPrice units old) :
    rewrittenPrice old fresh = .ok (rewritten old fresh) := by
  unfold rewrittenPrice
  rw [cacheEntries_ok h, overridesOffContext_ok h]
  rfl

/-- **A readable price is merged without an error.** -/
theorem mergedPrice_ok {old : Option Json} (h : CleanOld units old) :
    mergedPrice old fresh = .ok (mergedFields old fresh) := by
  cases old with
  | none => rfl
  | some v =>
    rcases h v rfl with rfl | ⟨entry, rfl, hentry⟩
    · rfl
    · unfold mergedPrice mergedFields
      dsimp only
      split
      · rfl
      · exact rewrittenPrice_ok hentry

/-! ### Lookups -/

@[simp] theorem get_rewritten_price : get (rewritten old fresh) "price" = get fresh "price" := by
  simp [rewritten, get_setSome, get_without]

@[simp] theorem get_rewritten_unit : get (rewritten old fresh) "unit" = get fresh "unit" := by
  simp [rewritten, get_setSome, get_without]

@[simp] theorem get_rewritten_cache :
    get (rewritten old fresh) "cache" = nonempty (rewrittenCache old fresh) := by
  simp [rewritten, get_setSome, get_without]

@[simp] theorem get_rewritten_overrides : get (rewritten old fresh) "overrides" =
    if rewrittenOverrides old fresh = [] then none
    else some (.arr (rewrittenOverrides old fresh)) := by
  simp [rewritten, get_setSome, get_without]

theorem get_rewritten_of_ne {key : String} (h : key ∉ ["price", "unit", "cache", "overrides"]) :
    get (rewritten old fresh) key = get old key := by
  simp only [mem_cons, not_mem_nil, or_false, not_or] at h
  simp [rewritten, get_setSome, get_without, h]

/-- What is kept of a price that columns rewrite. -/
structure KeepsPrice (old new : Fields) : Prop where
  rest : ∀ key ∉ ["price", "unit", "cache", "overrides"], get new key = get old key
  cache : ∀ key ∉ ["read", "write"], get (cacheOf new) key = get (cacheOf old) key
  overrides : ∃ tiers, overridesOf new = (overridesOf old).filter keptItem ++ tiers

theorem cacheOf_rewritten : cacheOf (rewritten old fresh) = rewrittenCache old fresh := by
  unfold cacheOf
  rw [get_rewritten_cache]
  cases rewrittenCache old fresh <;> rfl

theorem overridesOf_rewritten :
    overridesOf (rewritten old fresh) = rewrittenOverrides old fresh := by
  rw [overridesOf, get_rewritten_overrides]
  by_cases hnil : rewrittenOverrides old fresh = []
  · rw [if_pos hnil, hnil]
  · rw [if_neg hnil]

end

/-! ### A fresh price -/

section
variable {p : UnitPrice}

theorem keys_cacheOf_document (h : PlainPrice p) :
    ((cacheOf (unitPriceDocument p)).map Prod.fst).Nodup ∧
      ∀ key ∈ (cacheOf (unitPriceDocument p)).map Prod.fst, key = "read" ∨ key = "write" := by
  unfold cacheOf
  rw [get_cache, h.explicit]
  rcases nonempty_cachesDocument h.cache with
    ⟨-, hdoc⟩ | ⟨prices, fields, -, hdoc, -, -, -, -, hnodup, hkeys⟩
  · rw [hdoc]
    exact ⟨nodup_nil, by simp⟩
  · rw [hdoc]
    exact ⟨hnodup, hkeys⟩

theorem get_cacheOf_read (h : PlainPrice p) : get (cacheOf (unitPriceDocument p)) "read" =
    (p.cache.bind fun cache => cache.read).map .num := by
  unfold cacheOf
  rw [get_cache, h.explicit]
  rcases nonempty_cachesDocument h.cache with
    ⟨hcache, hdoc⟩ | ⟨prices, fields, hcache, hdoc, hread, -⟩
  · rw [hdoc, hcache]
    rfl
  · rw [hdoc, hcache]
    exact hread

theorem get_cacheOf_write (h : PlainPrice p) : get (cacheOf (unitPriceDocument p)) "write" =
    (p.cache.bind fun cache => cache.write).map .num := by
  unfold cacheOf
  rw [get_cache, h.explicit]
  rcases nonempty_cachesDocument h.cache with
    ⟨hcache, hdoc⟩ | ⟨prices, fields, hcache, hdoc, -, hwrite, -⟩
  · rw [hdoc, hcache]
    rfl
  · rw [hdoc, hcache]
    exact hwrite

theorem overridesOf_document (p : UnitPrice) : overridesOf (unitPriceDocument p) =
    p.overrides.map fun o => .obj (overrideDocument o) := by
  unfold overridesOf
  rw [get_overrides]
  by_cases hnil : p.overrides = []
  · rw [if_pos hnil, hnil]
    rfl
  · rw [if_neg hnil]

theorem get_rewrittenCache (h : PlainPrice p) (old : Fields) (key : String) :
    get (rewrittenCache old (unitPriceDocument p)) key =
      (get (cacheOf (unitPriceDocument p)) key).or
        (if key ∈ ["read", "write"] then none else get (cacheOf old) key) := by
  rw [rewrittenCache, get_update _ (keys_cacheOf_document h).1, get_without]

theorem get_rewrittenCache_of_ne (h : PlainPrice p) (old : Fields) {key : String}
    (hkey : key ∉ ["read", "write"]) :
    get (rewrittenCache old (unitPriceDocument p)) key = get (cacheOf old) key := by
  have hnone : get (cacheOf (unitPriceDocument p)) key = none := by
    refine get_eq_none_of_not_mem fun hmem => hkey ?_
    rcases (keys_cacheOf_document h).2 key hmem with rfl | rfl <;> simp
  rw [get_rewrittenCache h, hnone, if_neg hkey, Option.none_or]

theorem get_rewrittenCache_read (h : PlainPrice p) (old : Fields) :
    get (rewrittenCache old (unitPriceDocument p)) "read" =
      (p.cache.bind fun cache => cache.read).map .num := by
  rw [get_rewrittenCache h, get_cacheOf_read h, if_pos (by simp), Option.or_none]

theorem get_rewrittenCache_write (h : PlainPrice p) (old : Fields) :
    get (rewrittenCache old (unitPriceDocument p)) "write" =
      (p.cache.bind fun cache => cache.write).map .num := by
  rw [get_rewrittenCache h, get_cacheOf_write h, if_pos (by simp), Option.or_none]

/-- **The rest of the old price is kept.** -/
theorem keepsPrice_rewritten (h : PlainPrice p) (old : Fields) :
    KeepsPrice old (rewritten old (unitPriceDocument p)) where
  rest _ hkey := get_rewritten_of_ne hkey
  cache key hkey := by rw [cacheOf_rewritten, get_rewrittenCache_of_ne h old hkey]
  overrides := ⟨_, overridesOf_rewritten⟩

/-! ### What a merged price says -/

/-- A price that says what `p` says, and may hold more: other cache prices, and overrides on
anything but context. -/
structure Says (p q : UnitPrice) : Prop where
  price : q.price = p.price
  unit : q.unit = p.unit
  cacheRead : (q.cache.bind fun cache => cache.read) = p.cache.bind fun cache => cache.read
  cacheWrite : (q.cache.bind fun cache => cache.write) = p.cache.bind fun cache => cache.write
  overrides : ∃ kept, (∀ o ∈ kept, contextSize o.when = none) ∧ q.overrides = kept ++ p.overrides

theorem Says.refl (p : UnitPrice) : Says p p :=
  ⟨rfl, rfl, rfl, rfl, [], by simp, rfl⟩

theorem cachesRead_nonempty {raw cache : Fields} (h : get raw "cache" = nonempty cache) :
    ((cachesRead raw).1.bind fun prices => prices.read) = (get cache "read").bind number ∧
      ((cachesRead raw).1.bind fun prices => prices.write) = (cacheWrites cache []).value.1 ∧
      (cachesRead raw).2 = ((get cache "explicit").bind asObject).map cacheRead := by
  rw [cachesRead_eq, h]
  cases cache with
  | nil => exact ⟨rfl, rfl, rfl⟩
  | cons entry rest =>
    simp only [nonempty, Option.bind_some, asObject, cacheRead_eq]
    exact ⟨trivial, trivial, trivial⟩

theorem cacheWrites_value {cache : Fields} {q : Option ℚ} (h : get cache "write" = q.map .num) :
    (cacheWrites cache []).value.1 = q := by
  unfold cacheWrites
  rw [h]
  cases q with
  | none => simp [h]
  | some q => simp [h, number]

theorem contextSize_of_kept {item : Json} {fields : Fields} {o : Override}
    (hitem : keptItem item = true) (hfields : asObject item = some fields)
    (ho : overrideRead fields = some o) : contextSize o.when = none := by
  rw [overrideRead_eq] at ho
  obtain ⟨when', hwhen, rfl⟩ := Option.map_eq_some_iff.mp ho
  obtain ⟨v, hv, hwhen⟩ := Option.bind_eq_some_iff.mp hwhen
  cases item with
  | obj own =>
    obtain rfl : own = fields := Option.some.inj hfields
    cases v with
    | obj condition =>
      obtain rfl : condition = when' := Option.some.inj hwhen
      have hnot : namesContext condition = false := by
        simpa [keptItem, onContext, hv] using hitem
      rw [contextSize, if_neg (by simp [hnot])]
    | _ => cases hwhen
  | _ => cases hfields

theorem overridesRead_rewritten (h : PlainPrice p) (old : Fields) :
    overridesRead (rewritten old (unitPriceDocument p)) =
      (objectItems ((overridesOf old).filter keptItem)).filterMap overrideRead ++ p.overrides := by
  have hitems : overridesRead (rewritten old (unitPriceDocument p)) =
      (objectItems (rewrittenOverrides old (unitPriceDocument p))).filterMap overrideRead := by
    unfold overridesRead
    rw [get_rewritten_overrides]
    by_cases hnil : rewrittenOverrides old (unitPriceDocument p) = []
    · rw [if_pos hnil, hnil]
      rfl
    · rw [if_neg hnil]
  have hfresh := filterMap_overrideRead h.overrides
  rw [hitems, rewrittenOverrides, overridesOf_document, objectItems, filterMap_append,
    filterMap_append]
  exact congrArg _ hfresh

theorem says_rewritten (h : PlainPrice p) (old : Fields) :
    Says p (priceRead (rewritten old (unitPriceDocument p))) := by
  have hcaches : get (rewritten old (unitPriceDocument p)) "cache" =
      nonempty (rewrittenCache old (unitPriceDocument p)) := get_rewritten_cache
  obtain ⟨hread, hwrite, -⟩ := cachesRead_nonempty hcaches
  obtain ⟨name, hname, hunit⟩ := h.unit
  exact {
    price := by
      rw [priceRead, get_rewritten_price, get_price]
      exact map_num_bind_number p.price
    unit := by
      rw [priceRead, get_rewritten_unit, get_unit, hunit]
      simp [asText, hname]
    cacheRead := by
      refine hread.trans ?_
      rw [get_rewrittenCache_read h]
      exact map_num_bind_number _
    cacheWrite := hwrite.trans (cacheWrites_value (get_rewrittenCache_write h old))
    overrides := by
      refine ⟨_, fun o ho => ?_, overridesRead_rewritten h old⟩
      obtain ⟨fields, hfields, ho⟩ := mem_filterMap.mp ho
      obtain ⟨item, hitem, hobject⟩ := mem_filterMap.mp hfields
      exact contextSize_of_kept (mem_filter.mp hitem).2 hobject ho }

theorem explicit_rewritten (h : PlainPrice p) (old : Fields) :
    (priceRead (rewritten old (unitPriceDocument p))).explicitCache =
      ((get (cacheOf old) "explicit").bind asObject).map cacheRead := by
  have hcaches : get (rewritten old (unitPriceDocument p)) "cache" =
      nonempty (rewrittenCache old (unitPriceDocument p)) := get_rewritten_cache
  refine (cachesRead_nonempty hcaches).2.2.trans ?_
  rw [get_rewrittenCache_of_ne h old (by simp)]

theorem explicit_old (old : Fields) : (priceRead old).explicitCache =
    ((get (cacheOf old) "explicit").bind asObject).map cacheRead := by
  unfold priceRead cacheOf
  dsimp only
  rw [cachesRead_eq]
  rcases get old "cache" with _ | (_ | _ | _ | _ | _ | cache) <;> rfl

/-! ### A merged price is readable -/

variable {units : List String}

theorem cleanCache_of_old {old : Fields} (h : CleanPrice units old) :
    (∀ v ∈ get (cacheOf old) "storage", v = .null ∨ ∃ q, v = .num q) ∧
      ∀ e ∈ get (cacheOf old) "explicit", e = .null ∨
        ∃ explicit, e = .obj explicit ∧ CleanCache explicit := by
  unfold cacheOf
  cases hget : get old "cache" with
  | none => exact ⟨by simp, by simp⟩
  | some v =>
    rcases h.caches v hget with rfl | ⟨cache, rfl, hcache, hexplicit⟩
    · exact ⟨by simp, by simp⟩
    · refine ⟨?_, hexplicit⟩
      unfold CleanCache cachePrices at hcache
      simp only [clean_bind, clean_price] at hcache
      exact hcache.2.2.1

theorem cleanCaches_nonempty {raw cache : Fields} (h : get raw "cache" = nonempty cache)
    (hread : ∃ q : Option ℚ, get cache "read" = q.map .num)
    (hwrite : ∃ q : Option ℚ, get cache "write" = q.map .num)
    (hstorage : ∀ v ∈ get cache "storage", v = .null ∨ ∃ q, v = .num q)
    (hexplicit : ∀ e ∈ get cache "explicit", e = .null ∨
      ∃ explicit, e = .obj explicit ∧ CleanCache explicit) : CleanCaches raw := by
  intro v hv
  rw [h] at hv
  cases cache with
  | nil => cases hv
  | cons entry rest =>
    obtain rfl := Option.some.inj hv
    refine .inr ⟨_, rfl, ?_, hexplicit⟩
    obtain ⟨read, hread⟩ := hread
    obtain ⟨write, hwrite⟩ := hwrite
    unfold CleanCache cachePrices
    simp only [clean_bind, clean_price, clean_pure, and_true]
    refine ⟨?_, ?_, hstorage⟩
    · unfold cacheWrites
      rw [hwrite]
      cases write with
      | none => simp [clean_price, hwrite]
      | some q => simp [clean_price, hwrite]
    · rw [hread]
      cases read <;> simp

/-- **A rewritten price is readable.** -/
theorem cleanPrice_rewritten {old : Fields} (hold : CleanPrice units old)
    (h : PlainPrice p) (hknown : ∀ name ∈ p.unit, name ∈ units) :
    CleanPrice units (rewritten old (unitPriceDocument p)) := by
  have hfresh : CleanPrice units (unitPriceDocument p) := cleanPrice_document h hknown
  obtain ⟨hstorage, hexplicit⟩ := cleanCache_of_old hold
  exact {
    price := by
      rw [get_rewritten_price]
      exact hfresh.price
    reasoning := by
      rw [get_rewritten_of_ne (by simp)]
      exact hold.reasoning
    caches := by
      refine cleanCaches_nonempty get_rewritten_cache ⟨_, get_rewrittenCache_read h old⟩
        ⟨_, get_rewrittenCache_write h old⟩ ?_ ?_
      · rw [get_rewrittenCache_of_ne h old (by simp)]
        exact hstorage
      · rw [get_rewrittenCache_of_ne h old (by simp)]
        exact hexplicit
    overrides := by
      rw [get_rewritten_overrides]
      intro v hv
      split at hv
      · cases hv
      · obtain rfl := Option.some.inj hv
        refine .inr ⟨_, rfl, fun item hitem => ?_⟩
        rcases mem_append.mp hitem with hkept | hnew
        · have hin := (mem_filter.mp hkept).1
          unfold overridesOf at hin
          cases hget : get old "overrides" with
          | none => simp [hget] at hin
          | some items =>
            rcases hold.overrides items hget with rfl | ⟨items, rfl, hitems⟩
            · simp [hget] at hin
            · exact hitems item (by simpa [hget] using hin)
        · rw [overridesOf_document] at hnew
          obtain ⟨o, ho, rfl⟩ := mem_map.mp hnew
          exact ⟨_, rfl, cleanOverride_document (h.overrides o ho)⟩
    unit := by
      rw [get_rewritten_unit]
      exact hfresh.unit
    known := by
      rw [get_rewritten_unit]
      exact hfresh.known }

/-! ### Either way -/

theorem cleanPrice_merged {old : Option Json} (hold : CleanOld units old)
    (h : PlainPrice p) (hknown : ∀ name ∈ p.unit, name ∈ units) :
    CleanPrice units (mergedFields old (unitPriceDocument p)) := by
  unfold mergedFields
  split
  · rename_i entry
    split
    · exact cleanPrice_document h hknown
    · rcases hold _ rfl with hnull | ⟨own, hown, hclean⟩
      · cases hnull
      · obtain rfl := Json.obj.inj hown
        exact cleanPrice_rewritten hclean h hknown
  · exact cleanPrice_document h hknown

theorem says_merged (h : PlainPrice p) (old : Option Json) :
    Says p (priceRead (mergedFields old (unitPriceDocument p))) := by
  have hfresh : Says p (priceRead (unitPriceDocument p)) := by
    rw [priceRead_document h]
    exact Says.refl p
  unfold mergedFields
  split
  · split
    · exact hfresh
    · exact says_rewritten h _
  · exact hfresh

theorem explicit_merged (h : PlainPrice p) (old : Option Json) :
    (priceRead (mergedFields old (unitPriceDocument p))).explicitCache = none ∨
      ∃ entry, old = some (.obj entry) ∧
        (priceRead (mergedFields old (unitPriceDocument p))).explicitCache =
          (priceRead entry).explicitCache := by
  have hfresh : (priceRead (unitPriceDocument p)).explicitCache = none := by
    rw [priceRead_document h, h.explicit]
  unfold mergedFields
  split
  · rename_i entry
    split
    · exact .inl hfresh
    · exact .inr ⟨entry, rfl, by rw [explicit_rewritten h, explicit_old]⟩
  · exact .inl hfresh

end

end Otari.PriceRates

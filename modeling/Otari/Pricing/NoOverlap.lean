import Otari.Pricing.OrganizationPricing

/-!
# Pricing — NoOverlap — one price per instant

Runs of the operations that write an organization's prices.  Two periods of one organization, kind
and key never overlap where every seeding finds no period of its key still to start
(`SeedsClear`, `run_noOverlap`): the override surface checks before it writes, and a seeded row is
open ended from an instant no period covers.  A period that is only scheduled is not seen by that
test, and `seeding_overlaps` is a run where a seeded row runs into one.
-/

namespace Otari.Pricing
open Select Index List

/-! ### Periods -/

def Overlap (a b : OrganizationModelPricing) : Prop :=
  ∃ t, a.covers t ∧ b.covers t

def SameSeries (a b : OrganizationModelPricing) : Prop :=
  a.organizationId = b.organizationId ∧ a.kind = b.kind ∧ a.modelKey = b.modelKey

/-- **No two stored periods of one organization, kind and key overlap.** -/
def NoOverlap (rows : List OrganizationModelPricing) : Prop :=
  rows.Pairwise fun a b => SameSeries a b → ¬ Overlap a b

variable {a b : OrganizationModelPricing}

theorem Overlap.symm (h : Overlap a b) : Overlap b a := by
  obtain ⟨t, ha, hb⟩ := h
  exact ⟨t, hb, ha⟩

theorem SameSeries.symm (h : SameSeries a b) : SameSeries b a :=
  ⟨h.1.symm, h.2.1.symm, h.2.2.symm⟩

theorem Overlap.endsAfter (h : Overlap a b) : endsAfter a.effectiveTo b.effectiveFrom := by
  obtain ⟨t, ha, hb⟩ := h
  exact fun e he => hb.1.trans_lt (ha.2 e he)

variable {rows : List OrganizationModelPricing} {row : OrganizationModelPricing}

theorem NoOverlap.append
    (h : NoOverlap rows) (hrow : ∀ r ∈ rows, SameSeries r row → ¬ Overlap r row) :
    NoOverlap (rows ++ [row]) :=
  pairwise_append.mpr ⟨h, pairwise_singleton _ _, fun a ha _ hb =>
    mem_singleton.mp hb ▸ hrow a ha⟩

def IdsUnique (rows : List OrganizationModelPricing) : Prop :=
  rows.Pairwise fun a b => a.id ≠ b.id

variable {f : OrganizationModelPricing → OrganizationModelPricing}

theorem rewriteRow_idsUnique (h : IdsUnique rows) (id : ℕ) (hf : ∀ r, (f r).id = r.id) :
    IdsUnique (rewriteRow rows id f) := by
  refine pairwise_map.mpr (h.imp fun hab => ?_)
  have hid : ∀ r : OrganizationModelPricing, (if r.id = id then f r else r).id = r.id := fun r => by
    split
    · exact hf r
    · rfl
  rw [hid, hid]
  exact hab

theorem NoOverlap.rewriteRow (h : NoOverlap rows) (hids : IdsUnique rows) {id : ℕ}
    (hf : ∀ x ∈ rows, x.id = id → ∀ r ∈ rows, r.id ≠ id → SameSeries r (f x) →
      ¬ Overlap r (f x)) : NoOverlap (rewriteRow rows id f) := by
  refine pairwise_map.mpr (List.Pairwise.imp_of_mem (fun {a b} ha hb hab => ?_)
    (h.and hids))
  by_cases hai : a.id = id
  · have hbi : b.id ≠ id := fun e => hab.2 (hai.trans e.symm)
    rw [if_pos hai, if_neg hbi]
    exact fun hs ho => hf a ha hai b hb hbi hs.symm ho.symm
  · rw [if_neg hai]
    by_cases hbi : b.id = id
    · rw [if_pos hbi]
      exact hf b hb hbi a ha hai
    · rw [if_neg hbi]
      exact hab.1

/-! ### The checked surface -/

structure Tables.Inv (t : Tables) : Prop where
  ids : IdsUnique t.overrides
  fresh : ∀ row ∈ t.overrides, row.id < t.nextId
  apart : NoOverlap t.overrides

variable {organizationId : ℕ} {modelKey : Key} {kind : PricingKind}

variable {effectiveFrom : Instant}

theorem raiseIfOverlapping_ok {effectiveTo : Option Instant} {excludeId : Option ℕ}
    (h : raiseIfOverlapping rows organizationId modelKey effectiveFrom effectiveTo excludeId kind =
      .ok ()) {new : OrganizationModelPricing} (hs : new.inSeries organizationId kind modelKey)
    (hfrom : new.effectiveFrom = effectiveFrom) (hto : new.effectiveTo = effectiveTo)
    {r : OrganizationModelPricing} (hr : r ∈ rows) (hid : ∀ id ∈ excludeId, r.id ≠ id)
    (hsame : SameSeries r new) : ¬ Overlap r new := by
  intro ho
  unfold raiseIfOverlapping at h
  split at h
  · cases h
  · rename_i hnone
    refine List.find?_eq_none.mp hnone r hr ?_
    rw [decide_eq_true_eq]
    refine ⟨⟨hsame.1.trans hs.1, hsame.2.1.trans hs.2.1, hsame.2.2.trans hs.2.2⟩, ?_, ?_, hid⟩
    · exact hfrom ▸ ho.endsAfter
    · exact hto ▸ ho.symm.endsAfter

variable {d : Deployment} {t t' : Tables}

variable {override : PricingOverrideInput}

theorem createForCaller_inv (h : t.Inv)
    (hok : createForCaller d t organizationId modelKey override kind = .ok t') : t'.Inv := by
  unfold createForCaller at hok
  simp only [bind_eq_ok] at hok
  obtain ⟨-, -, -, -, -, -, -, -, ⟨⟩, hcheck, -, -, hok⟩ := hok
  cases hok
  refine ⟨?_, ?_, h.apart.append fun r hr hs => ?_⟩
  · refine pairwise_append.mpr ⟨h.ids, pairwise_singleton _ _, fun a ha b hb => ?_⟩
    cases mem_singleton.mp hb
    exact (h.fresh a ha).ne
  · intro row hrow
    rcases mem_append.mp hrow with hrow | hrow
    · exact (h.fresh row hrow).trans (Nat.lt_succ_self _)
    · cases mem_singleton.mp hrow
      exact Nat.lt_succ_self _
  · exact raiseIfOverlapping_ok hcheck ⟨rfl, rfl, rfl⟩ rfl rfl hr (fun id hid => by cases hid) hs

variable {pricingId : ℕ}

theorem ownedRow_ok (h : ownedRow t organizationId pricingId = .ok row) :
    row ∈ t.overrides ∧ row.organizationId = organizationId := by
  unfold ownedRow at h
  split at h
  · rename_i row' hfind
    cases h
    have hp := List.find?_some hfind
    rw [decide_eq_true_eq] at hp
    exact ⟨mem_of_find?_eq_some hfind, hp.2⟩
  · cases h

theorem IdsUnique.eq (h : IdsUnique rows)
    (ha : a ∈ rows) (hb : b ∈ rows) (hab : a.id = b.id) : a = b := by
  have hsymm : Std.Symm fun a b : OrganizationModelPricing => a.id ≠ b.id := ⟨fun _ _ h => h.symm⟩
  by_contra hne
  exact List.Pairwise.forall h ha hb hne hab

theorem replaceForCaller_inv (h : t.Inv)
    (hok : replaceForCaller d t organizationId pricingId override = .ok t') : t'.Inv := by
  unfold replaceForCaller at hok
  simp only [bind_eq_ok] at hok
  obtain ⟨row, howned, -, -, -, -, -, -, -, -, -, -, ⟨⟩, hcheck, -, -, hok⟩ := hok
  cases hok
  obtain ⟨hrow, horg⟩ := ownedRow_ok howned
  refine ⟨rewriteRow_idsUnique h.ids _ fun _ => rfl, ?_, h.apart.rewriteRow h.ids ?_⟩
  · intro r hr
    obtain ⟨r', hr', rfl⟩ := mem_map.mp hr
    split
    · exact h.fresh r' hr'
    · exact h.fresh r' hr'
  · intro x hx hxid r hr hrid hs
    obtain rfl : x = row := h.ids.eq hx hrow hxid
    refine raiseIfOverlapping_ok hcheck ?_ ?_ ?_ hr (fun id hid => Option.some.inj hid ▸ hrid) hs
    · exact ⟨horg, rfl, rfl⟩
    · rfl
    · rfl

theorem deleteForCaller_inv
    (h : t.Inv) (hok : deleteForCaller d t organizationId pricingId = .ok t') : t'.Inv := by
  unfold deleteForCaller at hok
  simp only [bind_eq_ok] at hok
  obtain ⟨row, -, -, -, hok⟩ := hok
  cases hok
  exact ⟨h.ids.filter _, fun r hr => h.fresh r (mem_of_mem_filter hr), h.apart.filter _⟩

/-! ### Seeding -/

/-- No stored period of the model is still to start at `now`. -/
def NoneScheduled (rows : List OrganizationModelPricing) (organizationId : ℕ) (modelKey : Key)
    (now : Instant) : Prop :=
  ∀ row ∈ rows, row.inSeries organizationId .model modelKey → row.effectiveFrom ≤ now

/-- The rows of a series each end by `now`, or were seeded at it. -/
def ClearOrSeeded (rows : List OrganizationModelPricing) (organizationId : ℕ) (modelKey : Key)
    (now : Instant) : Prop :=
  ∀ row ∈ rows, row.inSeries organizationId .model modelKey →
    row.effectiveFrom = now ∨ ¬ ∃ t, now ≤ t ∧ row.covers t

variable {now : Instant}

theorem NoneScheduled.clear (h : NoneScheduled rows organizationId modelKey now)
    (hcov : ∀ row ∈ rows, row.inSeries organizationId .model modelKey → ¬ row.covers now) :
    ClearOrSeeded rows organizationId modelKey now := by
  refine fun row hrow hs => .inr ?_
  rintro ⟨t, ht, -, hend⟩
  exact hcov row hrow hs ⟨h row hrow hs, fun e he => ht.trans_lt (hend e he)⟩

theorem flushOrConflict_ok
    (h : flushOrConflict rows organizationId modelKey effectiveFrom none kind = .ok ()) :
    ∀ row ∈ rows, row.inSeries organizationId kind modelKey →
      row.effectiveFrom ≠ effectiveFrom := by
  unfold flushOrConflict at h
  split at h
  · cases h
  · rename_i hnone
    intro row hrow hs hfrom
    refine List.find?_eq_none.mp hnone row hrow ?_
    rw [decide_eq_true_eq]
    exact ⟨hs, hfrom, fun id hid => by cases hid⟩

variable {seeds : List (Key × RateColumns)}

theorem stageSeededRates_frame (hok : stageSeededRates t organizationId now seeds = .ok t') :
    t'.modelPricing = t.modelPricing ∧ t'.offered = t.offered ∧
      (∀ row ∈ t.overrides, row ∈ t'.overrides) ∧
      ∀ row ∈ t'.overrides, row ∈ t.overrides ∨ row.modelKey ∈ seeds.map Prod.fst := by
  induction seeds generalizing t with
  | nil =>
    cases hok
    exact ⟨rfl, rfl, fun _ hr => hr, fun _ hr => .inl hr⟩
  | cons seed seeds ih =>
    obtain ⟨modelKey, default⟩ := seed
    unfold stageSeededRates at hok
    split at hok
    · cases hok
    · obtain ⟨hmp, hoff, hkeep, hkeys⟩ := ih hok
      refine ⟨hmp, hoff, fun row hr => hkeep row (mem_append_left _ hr), fun row hr => ?_⟩
      rcases hkeys row hr with hr | hr
      · rcases mem_append.mp hr with hr | hr
        · exact .inl hr
        · cases mem_singleton.mp hr
          exact .inr mem_cons_self
      · exact .inr (mem_cons_of_mem _ hr)

/-- **Staging seeded rows**, each for a key clear from `now`, keeps the periods apart.  A key staged
twice meets the unique index. -/
theorem stageSeededRates_inv (h : t.Inv)
    (hclear : ∀ seed ∈ seeds, ClearOrSeeded t.overrides organizationId seed.1 now)
    (hok : stageSeededRates t organizationId now seeds = .ok t') : t'.Inv := by
  induction seeds generalizing t with
  | nil =>
    cases hok
    exact h
  | cons seed seeds ih =>
    obtain ⟨modelKey, default⟩ := seed
    unfold stageSeededRates at hok
    split at hok
    · cases hok
    · rename_i hflush
      refine ih ⟨?_, ?_, h.apart.append fun r hr hs ho => ?_⟩ (fun seed hseed row hrow hs => ?_) hok
      · refine pairwise_append.mpr ⟨h.ids, pairwise_singleton _ _, ?_⟩
        intro a ha b hb
        cases mem_singleton.mp hb
        exact (h.fresh a ha).ne
      · intro row hrow
        rcases mem_append.mp hrow with hrow | hrow
        · exact (h.fresh row hrow).trans (Nat.lt_succ_self _)
        · cases mem_singleton.mp hrow
          exact Nat.lt_succ_self _
      · obtain ⟨t, hrt, hnt⟩ := ho
        rcases hclear _ mem_cons_self r hr hs with hfrom | hfar
        · exact flushOrConflict_ok hflush r hr hs hfrom
        · exact hfar ⟨t, hnt.1, hrt⟩
      · rcases mem_append.mp hrow with hrow | hrow
        · exact hclear seed (mem_cons_of_mem _ hseed) row hrow hs
        · cases mem_singleton.mp hrow
          exact .inl rfl

variable {keys : List Key} {asOf : Instant}

theorem applicableRows_isSome {key : Key} (hk : key ∈ keys) (hrow : row ∈ rows)
    (hs : row.inSeries organizationId .model key) (hc : row.covers asOf) :
    (applicableRows rows organizationId keys asOf key).isSome := by
  obtain ⟨chunk, hkc, hscan⟩ := scan_batched (·.modelKey) (selectApplicable rows organizationId asOf)
    (fun chunk row hrow => by simp [selectApplicable] at hrow; exact hrow.2.2.1) hk
  have hmem : row ∈ scan (·.modelKey) key (selectApplicable rows organizationId asOf chunk) := by
    simp only [scan, selectApplicable, mem_filter, mem_orderBy, decide_eq_true_eq]
    exact ⟨⟨hrow, ⟨hs.1, hs.2.1⟩, hs.2.2 ▸ hkc, hc⟩, hs.2.2⟩
  unfold applicableRows
  rw [foldl_batched_put, hscan, Option.isSome_iff_ne_none, Ne, List.getLast?_eq_none_iff]
  exact ne_nil_of_mem hmem

theorem applicableRows_mem {key : Key} (hk : key ∈ keys)
    (h : applicableRows rows organizationId keys asOf key = some row) :
    row ∈ rows ∧ row.inSeries organizationId .model key ∧ row.covers asOf := by
  obtain ⟨chunk, -, hscan⟩ := scan_batched (·.modelKey) (selectApplicable rows organizationId asOf)
    (fun chunk row hrow => by simp [selectApplicable] at hrow; exact hrow.2.2.1) hk
  unfold applicableRows at h
  rw [foldl_batched_put, hscan] at h
  have hmem := mem_of_getLast? h
  simp only [scan, selectApplicable, mem_filter, mem_orderBy, decide_eq_true_eq] at hmem
  exact ⟨hmem.1.1, ⟨hmem.1.2.1.1, hmem.1.2.1.2, hmem.2⟩, hmem.1.2.2.2⟩

theorem ratesInEffect_not_covered {key : Key} (hk : key ∈ keys)
    (h : ((ratesInEffect d t organizationId keys asOf key).bind (·.row)) = none) :
    ∀ row ∈ t.overrides, row.inSeries organizationId .model key → ¬ row.covers asOf := by
  intro row hrow hs hc
  obtain ⟨r, hr⟩ := Option.isSome_iff_exists.mp (applicableRows_isSome hk hrow hs hc)
  unfold ratesInEffect at h
  rw [if_pos hk, hr] at h
  cases h

variable {key : ProviderKey} {models : List Key} {model : Key}

theorem pricedByATable_not_covered (hm : model ∈ models)
    (h : pricedByATable d t key models now model = false) :
    ∀ row ∈ t.overrides, row.inSeries key.organizationId .model (key.modelKey model) →
      ¬ row.covers now := by
  have hk : key.modelKey model ∈ models.map key.modelKey := mem_map_of_mem hm
  refine ratesInEffect_not_covered (d := d) hk ?_
  unfold pricedByATable at h
  cases hr : ratesInEffect d t key.organizationId (models.map key.modelKey) now
      (key.modelKey model) with
  | none => rfl
  | some rate =>
    rw [hr] at h
    have hsource : rate.source = .defaults := by simpa using h
    unfold ratesInEffect at hr
    rw [if_pos (mem_map_of_mem hm)] at hr
    split at hr
    · cases hr; cases hsource
    · cases hr; cases hsource
    · obtain ⟨c, -, rfl⟩ := Option.map_eq_some_iff.mp hr
      rfl

theorem selectorKey_inj (provider : Key) : Function.Injective (selectorKey provider) := by
  intro m m' h
  simpa [selectorKey] using h

variable {defaults : Key → Option RateColumns} {seed : Key × RateColumns}

theorem mem_offerSeeds (h : seed ∈ offerSeeds d t key models defaults now) :
    ∃ model ∈ models, seed.1 = key.modelKey model ∧
      pricedByATable d t key models now model = false := by
  obtain ⟨model, hm, h⟩ := mem_filterMap.mp h
  split at h
  · cases h
  · rename_i hnot
    obtain ⟨default, -, rfl⟩ := Option.map_eq_some_iff.mp h
    exact ⟨model, mem_dedup.mp hm, rfl, by simpa using fun hp => hnot (.inl hp)⟩

theorem offer_inv (h : t.Inv) (hnone : ∀ seed ∈ offerSeeds d t key models defaults now,
      NoneScheduled t.overrides key.organizationId seed.1 now)
    (hok : offer d t key models defaults now = .ok t') : t'.Inv := by
  unfold offer at hok
  simp only [bind_eq_ok] at hok
  obtain ⟨staged, hstage, offered, -, hok⟩ := hok
  cases hok
  have hinv := stageSeededRates_inv h (fun seed hseed => by
    obtain ⟨model, hm, hkey, hunpriced⟩ := mem_offerSeeds hseed
    exact (hnone seed hseed).clear (hkey ▸ pricedByATable_not_covered hm hunpriced)) hstage
  exact ⟨hinv.ids, hinv.fresh, hinv.apart⟩

theorem createMany_ok {offered offered' rows : List OfferedModel}
    (h : createMany offered rows = .ok offered') :
    ∀ row ∈ rows, ∀ other ∈ offered, ¬ (other.keyId = row.keyId ∧ other.model = row.model) := by
  induction rows generalizing offered with
  | nil => exact fun row hrow => absurd hrow not_mem_nil
  | cons first rows ih =>
    unfold createMany at h
    split at h
    · cases h
    · rename_i hfree
      intro row hrow other hother hsame
      rcases mem_cons.mp hrow with rfl | hrow
      · exact hfree ⟨other, hother, hsame⟩
      · exact ih h row hrow other (mem_append_left _ hother) hsame

theorem offer_notOffered (hok : offer d t key models defaults now = .ok t') :
    ∀ model ∈ models, ∀ other ∈ t.offered, ¬ (other.keyId = key.id ∧ other.model = model) := by
  unfold offer at hok
  simp only [bind_eq_ok] at hok
  obtain ⟨staged, hstage, offered, hcreate, -⟩ := hok
  intro model hm other hother
  rw [← (stageSeededRates_frame hstage).2.1] at hother
  exact createMany_ok hcreate _ (mem_map_of_mem hm) other hother

/-- A row with the same identity and the same period. -/
def SamePeriod (a b : OrganizationModelPricing) : Prop :=
  a.id = b.id ∧ SameSeries a b ∧ a.effectiveFrom = b.effectiveFrom ∧ a.effectiveTo = b.effectiveTo

theorem SamePeriod.covers (h : SamePeriod a b) (t : Instant) : a.covers t ↔ b.covers t := by
  unfold OrganizationModelPricing.covers
  rw [h.2.2.1, h.2.2.2]

theorem SamePeriod.inSeries (h : SamePeriod a b) :
    a.inSeries organizationId kind modelKey ↔ b.inSeries organizationId kind modelKey := by
  unfold OrganizationModelPricing.inSeries
  rw [h.2.1.1, h.2.1.2.1, h.2.1.2.2]

theorem applyMoves_eq_map (decided : List (Key × Repricing))
    (rows : List OrganizationModelPricing) :
    ∃ g : OrganizationModelPricing → OrganizationModelPricing,
      applyMoves rows decided = rows.map g ∧ ∀ r, SamePeriod (g r) r := by
  induction decided generalizing rows with
  | nil => exact ⟨id, (map_id rows).symm, fun r => ⟨rfl, ⟨rfl, rfl, rfl⟩, rfl, rfl⟩⟩
  | cons step decided ih =>
    obtain ⟨model, what⟩ := step
    cases what with
    | keep => exact ih rows
    | seed default => exact ih rows
    | move existing default =>
      obtain ⟨g, hg, hsame⟩ := ih (rewriteRow rows existing.id (applyDefault default))
      refine ⟨fun r => g (if r.id = existing.id then applyDefault default r else r), ?_, ?_⟩
      · rw [applyMoves, hg, rewriteRow, map_map]
        rfl
      · intro r
        dsimp only
        split
        · exact hsame (applyDefault default r)
        · exact hsame r

variable {g : OrganizationModelPricing → OrganizationModelPricing}

theorem NoOverlap.map (h : NoOverlap rows) (hg : ∀ r, SamePeriod (g r) r) :
    NoOverlap (rows.map g) := by
  refine pairwise_map.mpr (h.imp fun {a b} hab hs ho => ?_)
  obtain ⟨t, ha, hb⟩ := ho
  obtain ⟨hao, hak, hamk⟩ := (hg a).2.1
  obtain ⟨hbo, hbk, hbmk⟩ := (hg b).2.1
  exact hab ⟨hao.symm.trans (hs.1.trans hbo), hak.symm.trans (hs.2.1.trans hbk),
    hamk.symm.trans (hs.2.2.trans hbmk)⟩ ⟨t, ((hg a).covers t).mp ha, ((hg b).covers t).mp hb⟩

theorem pricedByATable_mono (hmp : t'.modelPricing = t.modelPricing)
    (hkeep : ∀ row ∈ t.overrides, ∃ row' ∈ t'.overrides, SamePeriod row' row) (hm : model ∈ models)
    (h : pricedByATable d t' key models now model = false) :
    pricedByATable d t key models now model = false := by
  have hmem : key.modelKey model ∈ models.map key.modelKey := mem_map_of_mem hm
  have hnot := pricedByATable_not_covered hm h
  have happ : applicableRows t.overrides key.organizationId (models.map key.modelKey) now
      (key.modelKey model) = none := by
    cases hrow : applicableRows t.overrides key.organizationId (models.map key.modelKey) now
        (key.modelKey model) with
    | none => rfl
    | some row =>
      obtain ⟨hr, hs, hc⟩ := applicableRows_mem hmem hrow
      obtain ⟨row', hr', hsame⟩ := hkeep row hr
      exact absurd ((hsame.covers now).mpr hc) (hnot row' hr' (hsame.inSeries.mpr hs))
  unfold pricedByATable ratesInEffect at h ⊢
  rw [if_pos hmem] at h ⊢
  rw [happ]
  rw [hmp] at h
  cases happ' : applicableRows t'.overrides key.organizationId (models.map key.modelKey) now
      (key.modelKey model) with
  | none => rw [happ'] at h; exact h
  | some row => rw [happ'] at h; cases h

theorem offerSeeds_mono (hmp : t'.modelPricing = t.modelPricing)
    (hkeep : ∀ row ∈ t.overrides, ∃ row' ∈ t'.overrides, SamePeriod row' row)
    (h : seed ∈ offerSeeds d t' key models defaults now) :
    seed ∈ offerSeeds d t key models defaults now := by
  obtain ⟨model, hm, h⟩ := mem_filterMap.mp h
  refine mem_filterMap.mpr ⟨model, hm, ?_⟩
  split at h
  · cases h
  · rename_i hnot
    obtain ⟨hpriced, hseedable⟩ := not_or.mp hnot
    rw [Bool.not_eq_true] at hpriced
    rw [if_neg, h]
    rw [pricedByATable_mono hmp hkeep (mem_dedup.mp hm) hpriced]
    exact not_or.mpr ⟨Bool.false_ne_true, hseedable⟩

/-! ### Repricing -/

theorem repricing_seed {rate : Option EffectiveRate} {allowed : List Key} {default : RateColumns}
    (h : repricing defaults rate allowed model = .seed default) : rate.bind (·.row) = none := by
  cases hrow : rate.bind (·.row) with
  | none => rfl
  | some row =>
    unfold repricing at h
    rw [hrow] at h
    cases hdef : defaults model with
    | none => rw [hdef] at h; cases h
    | some default' =>
      rw [hdef] at h
      dsimp only at h
      split at h <;> cases h

theorem mem_repriceSeeds {added : List Key} {before : Instant}
    (h : seed ∈ repriceSeeds key (repricings d t key added before now)) :
    ∃ model ∈ t.offeredBy key, seed.1 = key.modelKey model ∧
      ∀ row ∈ t.overrides, row.inSeries key.organizationId .model (key.modelKey model) →
        ¬ row.covers now := by
  obtain ⟨⟨model, what⟩, hdecided, hseed⟩ := mem_filterMap.mp h
  cases what with
  | keep => cases hseed
  | move row default => cases hseed
  | seed default =>
    cases hseed
    obtain ⟨model', hm, heq⟩ := mem_map.mp hdecided
    obtain ⟨rfl, hwhat⟩ := Prod.mk.inj heq
    exact ⟨model', hm, rfl,
      ratesInEffect_not_covered (mem_map_of_mem hm) (repricing_seed hwhat)⟩

theorem NoneScheduled.map (h : NoneScheduled rows organizationId modelKey now)
    (hg : ∀ r, SamePeriod (g r) r) : NoneScheduled (rows.map g) organizationId modelKey now := by
  intro row hrow hs
  obtain ⟨r, hr, rfl⟩ := mem_map.mp hrow
  exact (hg r).2.2.1.trans_le (h r hr ((hg r).inSeries.mp hs))

theorem serveSeeded_keyId (d : Deployment) (key : ProviderKey) (seeded : List (Key × RateColumns))
    (row : OfferedModel) : (serveSeeded d key seeded row).keyId = row.keyId := by
  unfold serveSeeded
  split <;> rfl

theorem serveSeeded_model (d : Deployment) (key : ProviderKey) (seeded : List (Key × RateColumns))
    (row : OfferedModel) : (serveSeeded d key seeded row).model = row.model := by
  unfold serveSeeded
  split <;> rfl

/-- The models a refresh offers on top of the ones it keeps. -/
def repriceOffers (d : Deployment) (t : Tables) (key : ProviderKey) (added : List Key)
    (before after : Instant) : List (Key × RateColumns) :=
  let candidates := (t.offeredBy key).filter fun model => repriceable
    (ratesInEffect d t key.organizationId ((t.offeredBy key).map key.modelKey) before
      (key.modelKey model))
  offerSeeds d t key added (defaultsFor d key (candidates ++ added)) after

theorem reprice_inv {added : List Key} {before after : Instant} (h : t.Inv)
    (hseed : ∀ seed ∈ repriceSeeds key (repricings d t key added before now),
      NoneScheduled t.overrides key.organizationId seed.1 now)
    (hoffer : ∀ seed ∈ repriceOffers d t key added before after,
      NoneScheduled t.overrides key.organizationId seed.1 after)
    (hok : reprice d t key added before now after = .ok t') : t'.Inv := by
  unfold reprice at hok
  simp only [bind_eq_ok] at hok
  obtain ⟨staged, hstage, hok⟩ := hok
  obtain ⟨g, hg, hsame⟩ := applyMoves_eq_map (repricings d t key added before now) t.overrides
  rw [hg] at hstage
  have hmoved : Tables.Inv { t with
      overrides := t.overrides.map g
      offered := t.offered.map
        (serveSeeded d key (repriceSeeds key (repricings d t key added before now))) } := by
    refine ⟨pairwise_map.mpr (h.ids.imp fun {a b} hab => ?_), ?_, h.apart.map hsame⟩
    · rwa [(hsame a).1, (hsame b).1]
    · intro row hrow
      obtain ⟨r, hr, rfl⟩ := mem_map.mp hrow
      exact (hsame r).1.trans_lt (h.fresh r hr)
  have hinv := stageSeededRates_inv hmoved (fun seed hs => by
    obtain ⟨model, hm, hkey, hunpriced⟩ := mem_repriceSeeds hs
    refine ((hseed seed hs).map hsame).clear fun row hrow hin => ?_
    obtain ⟨r, hr, rfl⟩ := mem_map.mp hrow
    rw [(hsame r).covers]
    exact hunpriced r hr ((hsame r).inSeries.mp (hkey ▸ hin))) hstage
  split at hok
  · cases hok
    exact hinv
  · obtain ⟨hmp, hoff, hkeep, hkeys⟩ := stageSeededRates_frame hstage
    refine offer_inv hinv (fun seed hs row hrow hin => ?_) hok
    rcases hkeys row hrow with hrow | hrow
    · -- a stored row: the offer's condition, read on the tables before the refresh
      refine (hoffer seed ?_).map hsame row hrow hin
      exact offerSeeds_mono (t := t) hmp
        (fun r hr => ⟨g r, hkeep _ (mem_map_of_mem hr), hsame r⟩) hs
    · -- a row this refresh seeded is for a model already offered
      obtain ⟨model, hm, hkey, -⟩ := mem_offerSeeds hs
      obtain ⟨seed', hs', hrowKey⟩ := mem_map.mp hrow
      obtain ⟨model', hm', hkey', -⟩ := mem_repriceSeeds hs'
      have hmodel : model' = model := selectorKey_inj key.selectorPrefix
        (hkey'.symm.trans (hrowKey.trans (hin.2.2.trans hkey)))
      obtain ⟨other, hother, hname⟩ := mem_map.mp hm'
      rw [mem_filter, decide_eq_true_eq] at hother
      have hstaged : serveSeeded d key (repriceSeeds key (repricings d t key added before now))
          other ∈ staged.offered := by
        rw [hoff]
        exact mem_map_of_mem hother.1
      refine absurd ⟨?_, ?_⟩ (offer_notOffered hok model hm _ hstaged)
      · rw [serveSeeded_keyId, hother.2]
      · rw [serveSeeded_model, hname, hmodel]

/-! ### Runs -/

/-- One request on an organization's prices, with what it reads beside the tables. -/
inductive PriceOp where
  | create (d : Deployment) (organizationId : ℕ) (modelKey : Key)
      (override : PricingOverrideInput) (kind : PricingKind)
  | replace (d : Deployment) (organizationId pricingId : ℕ) (override : PricingOverrideInput)
  | delete (d : Deployment) (organizationId pricingId : ℕ)
  | offer (d : Deployment) (key : ProviderKey) (models : List Key)
      (defaults : Key → Option RateColumns) (now : Instant)
  | reprice (d : Deployment) (key : ProviderKey) (added : List Key) (before now after : Instant)
  /-- The deployment's own prices and the offered models move through other surfaces. -/
  | elsewhere (modelPricing : List ModelPricing) (offered : List OfferedModel)

def PriceOp.attempt (t : Tables) : PriceOp → Except PricingFailure Tables
  | .create d organizationId modelKey override kind =>
    createForCaller d t organizationId modelKey override kind
  | .replace d organizationId pricingId override =>
    replaceForCaller d t organizationId pricingId override
  | .delete d organizationId pricingId => deleteForCaller d t organizationId pricingId
  | .offer d key models defaults now => Pricing.offer d t key models defaults now
  | .reprice d key added before now after => Pricing.reprice d t key added before now after
  | .elsewhere modelPricing offered =>
    .ok { t with modelPricing := modelPricing, offered := offered }

/-- One request: a refused one rolls back. -/
def step (t : Tables) (op : PriceOp) : Tables :=
  match op.attempt t with
  | .ok t' => t'
  | .error _ => t

/-- No seeding of the request meets a period of its key that is still to start. -/
def SeedsClear (t : Tables) : PriceOp → Prop
  | .offer d key models defaults now =>
    ∀ seed ∈ offerSeeds d t key models defaults now,
      NoneScheduled t.overrides key.organizationId seed.1 now
  | .reprice d key added before now after =>
    (∀ seed ∈ repriceSeeds key (repricings d t key added before now),
      NoneScheduled t.overrides key.organizationId seed.1 now) ∧
    ∀ seed ∈ repriceOffers d t key added before after,
      NoneScheduled t.overrides key.organizationId seed.1 after
  | _ => True

/-- The states reached from an empty override table by requests that meet `C`. -/
inductive Run (C : Tables → PriceOp → Prop) : Tables → Prop where
  | start {t : Tables} (h : t.overrides = []) : Run C t
  | step {t : Tables} (hrun : Run C t) {op : PriceOp} (hop : C t op) : Run C (step t op)

theorem step_inv {op : PriceOp} (h : t.Inv) (hop : SeedsClear t op) : (step t op).Inv := by
  unfold step
  split
  · rename_i t' hok
    cases op with
    | create d organizationId modelKey override kind => exact createForCaller_inv h hok
    | replace d organizationId pricingId override => exact replaceForCaller_inv h hok
    | delete d organizationId pricingId => exact deleteForCaller_inv h hok
    | offer d key models defaults now => exact offer_inv h hop hok
    | reprice d key added before now after => exact reprice_inv h hop.1 hop.2 hok
    | elsewhere modelPricing offered =>
      cases hok
      exact ⟨h.ids, h.fresh, h.apart⟩
  · exact h

theorem run_inv (h : Run SeedsClear t) : t.Inv := by
  induction h with
  | start h =>
    refine ⟨?_, ?_, ?_⟩
    · rw [h]; exact List.Pairwise.nil
    · rw [h]; exact fun _ hr => absurd hr not_mem_nil
    · rw [h]; exact List.Pairwise.nil
  | step hrun hop ih => exact step_inv ih hop

/-- **One price per instant.**  In every run whose seedings meet no scheduled period, no two stored
periods of one organization, kind and key overlap. -/
theorem run_noOverlap {t : Tables} (h : Run SeedsClear t) : NoOverlap t.overrides :=
  (run_inv h).apart

/-! ### A seeded row that runs into a scheduled one -/

def sampleColumns : RateColumns where
  inputPricePerMillion := 1
  outputPricePerMillion := 1

def sampleDeployment : Deployment where
  operatesDeployment := false
  deploymentSupplied := fun _ _ => false
  requirePricing := true
  communityDefault := fun _ => some sampleColumns

def emptyTables : Tables where
  overrides := []
  modelPricing := []
  offered := []
  nextId := 0

/-- An override that starts at 10, still scheduled at 5. -/
def scheduleAt10 : PriceOp :=
  .create sampleDeployment 0 "p:m".toList
    { columns := sampleColumns, effectiveFrom := 10, effectiveTo := none } .model

/-- A model of the same key, offered at an instant. -/
def offerAt (model : Key) (now : Instant) : PriceOp :=
  .offer sampleDeployment { id := 0, organizationId := 0, selectorPrefix := "p".toList }
    [model] (fun _ => some sampleColumns) now

/-- **A seeded row overlaps a scheduled one.**  The model is offered at 5, before its override of 10
takes effect: the seeded row never ends. -/
theorem seeding_overlaps : ¬ ∀ t, Run (fun _ _ => True) t → NoOverlap t.overrides := by
  intro h
  have hrun : Run (fun _ _ => True) (step (step emptyTables scheduleAt10) (offerAt "m".toList 5)) :=
    ((Run.start rfl).step trivial).step trivial
  have hrows := h _ hrun
  have hstored : (step (step emptyTables scheduleAt10) (offerAt "m".toList 5)).overrides.map
      (fun row => (row.modelKey, row.effectiveFrom, row.effectiveTo)) =
        [("p:m".toList, 10, none), ("p:m".toList, 5, none)] := by
    decide +kernel
  have hseries : ∀ row ∈ (step (step emptyTables scheduleAt10) (offerAt "m".toList 5)).overrides,
      row.inSeries 0 .model "p:m".toList := by
    decide +kernel
  obtain ⟨a, rest, hab, ha, hrest⟩ := List.map_eq_cons_iff.mp hstored
  obtain ⟨b, rest', rfl, hb, -⟩ := List.map_eq_cons_iff.mp hrest
  rw [hab] at hrows hseries
  have hsa := hseries a (by simp)
  have hsb := hseries b (by simp)
  obtain ⟨-, haf, hat⟩ : _ ∧ _ ∧ _ := by simpa only [Prod.mk.injEq] using ha
  obtain ⟨-, hbf, hbt⟩ : _ ∧ _ ∧ _ := by simpa only [Prod.mk.injEq] using hb
  refine List.rel_of_pairwise_cons hrows List.mem_cons_self
    ⟨hsa.1.trans hsb.1.symm, hsa.2.1.trans hsb.2.1.symm, hsa.2.2.trans hsb.2.2.symm⟩ ⟨10, ?_, ?_⟩
  · exact ⟨haf.le, by rw [hat]; exact fun e he => nomatch he⟩
  · exact ⟨by rw [hbf]; decide, by rw [hbt]; exact fun e he => nomatch he⟩

/-- Offering another model seeds its rate and meets no scheduled period. -/
theorem run_noOverlap_sample :
    NoOverlap (step (step emptyTables scheduleAt10) (offerAt "n".toList 5)).overrides := by
  refine run_noOverlap (((Run.start rfl).step trivial).step ?_)
  have hclear : ∀ seed ∈ offerSeeds sampleDeployment (step emptyTables scheduleAt10)
        { id := 0, organizationId := 0, selectorPrefix := "p".toList } ["n".toList]
        (fun _ => some sampleColumns) 5,
      ∀ row ∈ (step emptyTables scheduleAt10).overrides,
        row.inSeries 0 .model seed.1 → row.effectiveFrom ≤ 5 := by
    decide +kernel
  exact hclear

end Otari.Pricing

import Mathlib.Algebra.BigOperators.Group.List.Basic
import Mathlib.Data.List.Dedup
import Mathlib.Data.List.Sort

/-!
# Support — Grouping — `GROUP BY`, and the value at a rank

`groupBy key` splits rows by their key.  A sum over the groups of the sums within them is the sum
over the rows (`sum_groupBy`), so sums kept by group answer for any coarser group.  `atRank` is the
value at a rank of the sorted rows, which the counts of the rows up to each value determine
(`atRank_eq_some`).
-/

namespace Grouping
open List hiding ne_nil_of_mem
variable {α κ : Type*}

section
variable [DecidableEq κ]

/-- The keys of the rows, each once, with the rows that have it. -/
def groupBy (key : α → κ) (rows : List α) : List (κ × List α) :=
  (rows.map key).dedup.map fun k => (k, rows.filter fun row => key row = k)

variable {key : α → κ} {rows : List α}

theorem map_fst_groupBy : (groupBy key rows).map Prod.fst = (rows.map key).dedup := by
  rw [groupBy, map_map]
  exact map_id _

variable {g : κ × List α}

theorem mem_groupBy : g ∈ groupBy key rows ↔
    (∃ row ∈ rows, key row = g.1) ∧ g.2 = rows.filter fun row => key row = g.1 := by
  simp only [groupBy, mem_map, mem_dedup]
  constructor
  · rintro ⟨k, hk, rfl⟩
    exact ⟨hk, rfl⟩
  · rintro ⟨hk, hrows⟩
    exact ⟨g.1, hk, Prod.ext rfl hrows.symm⟩

theorem key_of_mem (hg : g ∈ groupBy key rows) {row : α} (hrow : row ∈ g.2) :
    key row = g.1 ∧ row ∈ rows := by
  rw [(mem_groupBy.mp hg).2] at hrow
  obtain ⟨hmem, hkey⟩ := mem_filter.mp hrow
  exact ⟨of_decide_eq_true hkey, hmem⟩

variable {β : Type*}

theorem mem_map_groupBy {figures : List α → β} {x : κ × β} :
    x ∈ (groupBy key rows).map (fun g => (g.1, figures g.2)) ↔
      (∃ row ∈ rows, key row = x.1) ∧ figures (rows.filter fun row => key row = x.1) = x.2 := by
  rw [mem_map]
  constructor
  · rintro ⟨g, hg, rfl⟩
    obtain ⟨hrow, hfilter⟩ := mem_groupBy.mp hg
    exact ⟨hrow, congrArg figures hfilter.symm⟩
  · rintro ⟨hrow, hx⟩
    exact ⟨(x.1, _), mem_groupBy.mpr ⟨hrow, rfl⟩, Prod.ext rfl hx⟩

theorem mem_filterMap_groupBy {figure : List α → Option β} {x : κ × β} :
    x ∈ (groupBy key rows).filterMap (fun g => (figure g.2).map fun y => (g.1, y)) ↔
      (∃ row ∈ rows, key row = x.1) ∧ figure (rows.filter fun row => key row = x.1) = some x.2 := by
  rw [mem_filterMap]
  constructor
  · rintro ⟨g, hg, hx⟩
    obtain ⟨y, hy, rfl⟩ := Option.map_eq_some_iff.mp hx
    obtain ⟨hrow, hfilter⟩ := mem_groupBy.mp hg
    exact ⟨hrow, hfilter ▸ hy⟩
  · rintro ⟨hrow, hx⟩
    exact ⟨(x.1, _), mem_groupBy.mpr ⟨hrow, rfl⟩, Option.map_eq_some_iff.mpr ⟨x.2, hx, rfl⟩⟩

theorem nodup_map_groupBy (figures : List α → β) :
    (((groupBy key rows).map fun g => (g.1, figures g.2)).map Prod.fst).Nodup := by
  rw [map_map]
  show ((groupBy key rows).map Prod.fst).Nodup
  rw [map_fst_groupBy]
  exact nodup_dedup _

theorem nodup_filterMap_groupBy (figure : List α → Option β) :
    (((groupBy key rows).filterMap fun g => (figure g.2).map fun y => (g.1, y)).map
      Prod.fst).Nodup := by
  have hkeys : ((groupBy key rows).map Prod.fst).Nodup := by
    rw [map_fst_groupBy]
    exact nodup_dedup _
  generalize groupBy key rows = groups at hkeys
  refine hkeys.sublist ?_
  induction groups with
  | nil => exact .slnil
  | cons g groups ih =>
    have ih := ih (nodup_cons.mp hkeys).2
    cases hfigure : figure g.2 with
    | none =>
      rw [filterMap_cons_none (by rw [hfigure]; rfl)]
      exact ih.cons _
    | some y =>
      rw [filterMap_cons_some (b := (g.1, y)) (by rw [hfigure]; rfl)]
      exact ih.cons_cons _

theorem ne_nil_of_mem (hg : g ∈ groupBy key rows) : g.2 ≠ [] := by
  obtain ⟨⟨row, hrow, hkey⟩, hrows⟩ := mem_groupBy.mp hg
  rw [hrows]
  exact List.ne_nil_of_mem (mem_filter.mpr ⟨hrow, decide_eq_true hkey⟩)

end

/-! ### Sums -/

section
variable {M : Type*} [AddCommMonoid M]

theorem sum_filter (p : α → Bool) (f : α → M) (rows : List α) :
    ((rows.filter p).map f).sum = (rows.map fun row => if p row then f row else 0).sum := by
  induction rows with
  | nil => rfl
  | cons row rows ih =>
    rw [map_cons, sum_cons, ← ih]
    by_cases hp : p row = true
    · rw [filter_cons_of_pos hp, map_cons, sum_cons, if_pos hp]
    · rw [filter_cons_of_neg hp, if_neg hp, zero_add]

variable [DecidableEq κ] {key : α → κ}

theorem sum_single {keys : List κ} (hnodup : keys.Nodup) {k : κ} (hk : k ∈ keys) (x : M) :
    (keys.map fun k' => if k = k' then x else 0).sum = x := by
  induction keys with
  | nil => cases hk
  | cons k' keys ih =>
    obtain ⟨hnot, hnodup⟩ := nodup_cons.mp hnodup
    rw [map_cons, sum_cons]
    rcases mem_cons.mp hk with rfl | hk
    · have hrest : (keys.map fun k' => if k = k' then x else 0).sum = 0 := by
        refine sum_eq_zero fun y hy => ?_
        obtain ⟨k', hk', rfl⟩ := mem_map.mp hy
        exact if_neg fun h : k = k' => hnot (h ▸ hk')
      rw [if_pos rfl, hrest, add_zero]
    · rw [if_neg fun h : k = k' => hnot (h ▸ hk), ih hnodup hk, zero_add]

theorem sum_keys (f : α → M) {keys : List κ} (hnodup : keys.Nodup) (rows : List α)
    (hkeys : ∀ row ∈ rows, key row ∈ keys) :
    (keys.map fun k => ((rows.filter fun row => key row = k).map f).sum).sum =
      (rows.map f).sum := by
  induction rows with
  | nil => simp
  | cons row rows ih =>
    have hstep : ∀ k, (((row :: rows).filter fun row => key row = k).map f).sum =
        (if key row = k then f row else 0) +
          ((rows.filter fun row => key row = k).map f).sum := by
      intro k
      simp only [sum_filter, map_cons, sum_cons, decide_eq_true_eq]
    simp only [hstep]
    rw [sum_map_add, sum_single hnodup (hkeys row mem_cons_self),
      ih fun row hrow => hkeys row (mem_cons_of_mem _ hrow), map_cons, sum_cons]

/-- **The sums of the groups add up to the sum of the rows.** -/
theorem sum_groupBy (key : α → κ) (f : α → M) (rows : List α) :
    ((groupBy key rows).map fun g => (g.2.map f).sum).sum = (rows.map f).sum := by
  rw [groupBy, map_map]
  exact sum_keys f (nodup_dedup _) rows fun row hrow =>
    mem_dedup.mpr (mem_map_of_mem hrow)

end

/-! ### Ranks -/

section
variable [LinearOrder α]

/-- The value at rank `k` of the sorted list, the least at rank one. -/
def atRank (k : ℕ) (l : List α) : Option α :=
  (l.insertionSort (· ≤ ·))[k - 1]?

/-- **The value at rank `k`** is the least that `k` of the values do not exceed. -/
theorem atRank_eq_some {l : List α} {k : ℕ} {v : α} (hk : 0 < k)
    (hrank : k ≤ l.countP fun w => w ≤ v)
    (hleast : ∀ w ∈ l, k ≤ (l.countP fun u => u ≤ w) → v ≤ w) : atRank k l = some v := by
  have hperm := perm_insertionSort (· ≤ ·) l
  have hsorted := pairwise_insertionSort (· ≤ ·) l
  rw [atRank]
  generalize l.insertionSort (· ≤ ·) = s at hperm hsorted
  have hcount : ∀ w, s.countP (fun u => u ≤ w) = l.countP fun u => u ≤ w :=
    fun w => hperm.countP_eq _
  have hlt : k - 1 < s.length := by
    have := (hcount v).symm ▸ hrank
    have := this.trans countP_le_length
    omega
  have hupper : ∀ u ∈ s.take k, u ≤ s[k - 1] := by
    intro u hu
    obtain ⟨i, hi, rfl⟩ := mem_iff_getElem.mp hu
    rw [length_take] at hi
    rw [getElem_take]
    rcases Nat.lt_or_ge i (k - 1) with h | h
    · exact pairwise_iff_getElem.mp hsorted i (k - 1) _ hlt h
    · have heq : i = k - 1 := by omega
      subst heq
      exact le_rfl
  have hlower : ∀ u ∈ s.drop (k - 1), s[k - 1] ≤ u := by
    intro u hu
    obtain ⟨i, hi, rfl⟩ := mem_iff_getElem.mp hu
    rw [getElem_drop]
    rcases Nat.eq_zero_or_pos i with rfl | h
    · exact le_rfl
    · exact pairwise_iff_getElem.mp hsorted (k - 1) (k - 1 + i) hlt _ (by omega)
  have hreached : k ≤ l.countP fun u => u ≤ s[k - 1] := by
    have htake : (s.take k).countP (fun u => u ≤ s[k - 1]) = (s.take k).length :=
      countP_eq_length.mpr fun u hu => decide_eq_true (hupper u hu)
    have hle := (take_sublist k s).countP_le (p := fun u => decide (u ≤ s[k - 1]))
    rw [htake, length_take, hcount] at hle
    omega
  rw [List.getElem?_eq_getElem hlt]
  have hmem : s[k - 1] ∈ l := hperm.mem_iff.mp (getElem_mem hlt)
  refine congrArg some (le_antisymm ?_ (hleast _ hmem hreached))
  by_contra hgt
  have hnone : (s.drop (k - 1)).countP (fun u => u ≤ v) = 0 :=
    countP_eq_zero.mpr fun u hu hle =>
      hgt ((hlower u hu).trans (of_decide_eq_true hle))
  have hsplit : s.countP (fun u => u ≤ v) =
      (s.take (k - 1)).countP (fun u => u ≤ v) + (s.drop (k - 1)).countP fun u => u ≤ v := by
    rw [← countP_append, take_append_drop]
  have htake : (s.take (k - 1)).countP (fun u => u ≤ v) ≤ k - 1 :=
    countP_le_length.trans (length_take_le _ _)
  rw [hcount, hnone] at hsplit
  omega

end

end Grouping

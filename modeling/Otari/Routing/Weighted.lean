import Otari.Support.Json

/-!
# Routing — Weighted — a split of traffic by declared weight

`services/routing/weighted.py`: the share of traffic each candidate is due (`declaredShares`) and the
order one request tries them in, a repeated draw without replacement (`weightedOrdering`).

Weights and draws are of any ordered field, so the arithmetic is exact.  `rng.random()` is the next
of a sequence of draws.  The head of an ordering is decided by the first draw alone, and the draws
that pick a candidate are one interval as long as its share (`head_iff`).
-/

namespace Otari.Routing.Weighted
open Documents List

variable {K : Type} [Field K] [LinearOrder K]

/-- `max(0.0, float(weights.get(selector, 0.0)))`. -/
def weightOf (weights : List (String × K)) (selector : String) : K :=
  max 0 ((get weights selector).getD 0)

def weighted (weights : List (String × K)) (remaining : List String) : List (String × K) :=
  remaining.map fun selector => (selector, weightOf weights selector)

def total (entries : List (String × K)) : K := (entries.map Prod.snd).sum

/-- `declared_shares`: a percentage for each candidate of the pool. -/
def declaredShares (weights : List (String × K)) (pool : List String) : List (String × K) :=
  let raw := update [] (weighted weights pool)
  if total raw ≤ 0 then
    update [] (pool.zipIdx.map fun entry => (entry.1, if entry.2 = 0 then (100 : ℕ) else 0))
  else raw.map fun entry => (entry.1, entry.2 * (100 : ℕ) / total raw)

/-- The loop over cumulative weights: the first candidate whose upper boundary the draw is under. -/
def walk (draw : K) : K → List (String × K) → Option String
  | _, [] => none
  | cumulative, (selector, weight) :: rest =>
    if weight ≤ 0 then walk draw cumulative rest
    else if draw < cumulative + weight then some selector
    else walk draw (cumulative + weight) rest

/-- The candidate a draw picks: the last with a positive weight where it is past every boundary. -/
def picked (draw : K) (entries : List (String × K)) : Option String :=
  (walk draw 0 entries).or ((entries.reverse.find? fun entry => 0 < entry.2).map Prod.fst)

/-- The `while` loop, each turn taking one candidate out of those that remain. -/
def order (weights : List (String × K)) (draws : ℕ → K) : ℕ → ℕ → List String → List String
  | 0, _, _ => []
  | turns + 1, turn, remaining =>
    let entries := weighted weights remaining
    if total entries ≤ 0 then remaining
    else
      match picked (draws turn * total entries) entries with
      | some selector =>
        selector :: order weights draws turns (turn + 1) (remaining.erase selector)
      -- `StopIteration`: no weight is positive
      | none => []

/-- `weighted_ordering`. -/
def weightedOrdering (weights : List (String × K)) (draws : ℕ → K) (pool : List String) :
    List String :=
  order weights draws pool.length 0 pool

/-! ### Where a draw falls -/

section
variable {draw cumulative : K} {selector : String} {weight : K}
  {entries before after : List (String × K)}

omit [LinearOrder K] in
@[simp] theorem total_nil : total ([] : List (String × K)) = 0 := rfl

omit [LinearOrder K] in
@[simp] theorem total_cons (entry : String × K) (entries : List (String × K)) :
    total (entry :: entries) = entry.2 + total entries :=
  sum_cons

omit [LinearOrder K] in
@[simp] theorem total_append : total (before ++ after) = total before + total after := by
  unfold total
  rw [map_append, sum_append]

theorem mem_of_walk (h : walk draw cumulative entries = some selector) :
    ∃ weight, (selector, weight) ∈ entries ∧ 0 < weight := by
  induction entries generalizing cumulative with
  | nil => cases h
  | cons entry rest ih =>
    obtain ⟨other, weight⟩ := entry
    unfold walk at h
    split at h
    · obtain ⟨w, hw, hpos⟩ := ih h
      exact ⟨w, mem_cons_of_mem _ hw, hpos⟩
    · rename_i hpos
      split at h
      · obtain rfl := Option.some.inj h
        exact ⟨weight, mem_cons_self, not_le.mp hpos⟩
      · obtain ⟨w, hw, hpos⟩ := ih h
        exact ⟨w, mem_cons_of_mem _ hw, hpos⟩

theorem walk_isSome (hnonneg : ∀ entry ∈ entries, 0 ≤ entry.2) (hle : cumulative ≤ draw)
    (hlt : draw < cumulative + total entries) : (walk draw cumulative entries).isSome := by
  induction entries generalizing cumulative with
  | nil =>
    rw [total_nil, add_zero] at hlt
    exact absurd hle (not_le.mpr hlt)
  | cons entry rest ih =>
    obtain ⟨other, weight⟩ := entry
    have hrest := fun e he => hnonneg e (mem_cons_of_mem _ he)
    rw [total_cons, ← add_assoc] at hlt
    unfold walk
    split
    · rename_i hzero
      have hweight : weight = 0 := le_antisymm hzero (hnonneg _ mem_cons_self)
      rw [hweight, add_zero] at hlt
      exact ih hrest hle hlt
    · split
      · rfl
      · rename_i hpast
        exact ih hrest (not_lt.mp hpast) hlt

theorem picked_eq_walk (hnonneg : ∀ entry ∈ entries, 0 ≤ entry.2) (hle : 0 ≤ draw)
    (hlt : draw < total entries) : picked draw entries = walk draw 0 entries := by
  obtain ⟨selector, h⟩ := Option.isSome_iff_exists.mp
    (walk_isSome hnonneg hle ((zero_add (total entries)).symm ▸ hlt))
  rw [picked, h]
  rfl

variable [IsStrictOrderedRing K]

theorem total_nonneg (h : ∀ entry ∈ entries, 0 ≤ entry.2) : 0 ≤ total entries := by
  refine sum_nonneg fun weight hw => ?_
  obtain ⟨entry, hentry, rfl⟩ := mem_map.mp hw
  exact h entry hentry

/-- **The draws that fall to a candidate** start where the weights before it end, and are as many as
its own weight. -/
theorem walk_eq_some_iff (hnonneg : ∀ entry ∈ before, 0 ≤ entry.2)
    (hbefore : selector ∉ before.map Prod.fst) (hafter : selector ∉ after.map Prod.fst)
    (hle : cumulative ≤ draw) :
    walk draw cumulative (before ++ (selector, weight) :: after) = some selector ↔
      cumulative + total before ≤ draw ∧ draw < cumulative + total before + weight := by
  have hnot : ∀ c, walk draw c after ≠ some selector := by
    intro c h
    obtain ⟨w, hw, -⟩ := mem_of_walk h
    exact hafter (mem_map_of_mem (f := Prod.fst) hw)
  induction before generalizing cumulative with
  | nil =>
    rw [nil_append, total_nil, add_zero, walk]
    split
    · rename_i hzero
      refine iff_of_false (hnot _) fun h => ?_
      exact absurd h.2 (not_lt.mpr ((add_le_of_nonpos_right hzero).trans hle))
    · split
      · rename_i hlt
        exact iff_of_true rfl ⟨hle, hlt⟩
      · rename_i hpast
        exact iff_of_false (hnot _) fun h => hpast h.2
  | cons entry rest ih =>
    obtain ⟨other, w⟩ := entry
    rw [map_cons, mem_cons, not_or] at hbefore
    have hrest := fun e he => hnonneg e (mem_cons_of_mem _ he)
    have hw : 0 ≤ w := hnonneg _ mem_cons_self
    rw [cons_append, total_cons, ← add_assoc, walk]
    split
    · rename_i hzero
      rw [le_antisymm hzero hw, add_zero]
      exact ih hrest hbefore.2 hle
    · split
      · rename_i hlt
        refine iff_of_false (fun h => hbefore.1 (Option.some.inj h).symm) fun h => ?_
        exact absurd (hlt.trans_le (le_add_of_nonneg_right (total_nonneg hrest)))
          (not_lt.mpr h.1)
      · rename_i hpast
        exact ih hrest hbefore.2 (not_lt.mp hpast)

end

/-! ### The order -/

section
variable [IsStrictOrderedRing K] (weights : List (String × K)) {draws : ℕ → K}
  {pool remaining : List String}

omit [IsStrictOrderedRing K] in
theorem weightOf_nonneg (selector : String) : 0 ≤ weightOf weights selector :=
  le_max_left _ _

omit [IsStrictOrderedRing K] in
theorem weighted_nonneg (remaining : List String) : ∀ entry ∈ weighted weights remaining, 0 ≤ entry.2 := by
  intro entry hentry
  obtain ⟨selector, -, rfl⟩ := mem_map.mp hentry
  exact weightOf_nonneg weights selector

omit [IsStrictOrderedRing K] in
theorem keys_weighted (remaining : List String) : (weighted weights remaining).map Prod.fst = remaining := by
  rw [weighted, map_map]
  exact map_id _

theorem total_pos_iff :
    0 < total (weighted weights remaining) ↔ ∃ s ∈ remaining, 0 < weightOf weights s := by
  induction remaining with
  | nil => simp [weighted]
  | cons first rest ih =>
    have hfirst := weightOf_nonneg weights first
    have hrest := total_nonneg (weighted_nonneg weights rest)
    rw [weighted, map_cons, total_cons, ← weighted, exists_mem_cons_iff, ← ih]
    constructor
    · intro h
      by_contra hnot
      rw [not_or, not_lt, not_lt] at hnot
      exact absurd h (not_lt.mpr (add_nonpos hnot.1 hnot.2))
    · rintro (h | h)
      · exact add_pos_of_pos_of_nonneg h hrest
      · exact add_pos_of_nonneg_of_pos hfirst h

/-- Draws of `rng.random()`. -/
def Draws (draws : ℕ → K) : Prop := ∀ turn, 0 ≤ draws turn ∧ draws turn < 1

theorem picked_of_total_pos (hdraws : Draws draws) (turn : ℕ)
    (hpos : 0 < total (weighted weights remaining)) : ∃ s ∈ remaining, 0 < weightOf weights s ∧
      picked (draws turn * total (weighted weights remaining)) (weighted weights remaining) =
        some s := by
  obtain ⟨hle, hlt⟩ := hdraws turn
  have hunder : draws turn * total (weighted weights remaining) <
      total (weighted weights remaining) := mul_lt_of_lt_one_left hpos hlt
  have hover := mul_nonneg hle hpos.le
  have hlast : draws turn * total (weighted weights remaining) <
      0 + total (weighted weights remaining) := by rwa [zero_add]
  rw [picked_eq_walk (weighted_nonneg weights _) hover hunder]
  obtain ⟨s, hs⟩ := Option.isSome_iff_exists.mp
    (walk_isSome (weighted_nonneg weights _) hover hlast)
  obtain ⟨w, hmem, hw⟩ := mem_of_walk hs
  obtain ⟨s', hs', heq⟩ := mem_map.mp hmem
  obtain ⟨rfl, rfl⟩ := Prod.mk.inj heq
  exact ⟨s', hs', hw, hs⟩

theorem order_split (hdraws : Draws draws) {turns turn : ℕ} (hlen : remaining.length ≤ turns)
    (hnodup : remaining.Nodup) : ∃ drawn, order weights draws turns turn remaining =
        drawn ++ remaining.filter (fun s => weightOf weights s ≤ 0) ∧
      drawn.Perm (remaining.filter fun s => 0 < weightOf weights s) := by
  induction turns generalizing turn remaining with
  | zero =>
    obtain rfl := length_eq_zero_iff.mp (Nat.le_zero.mp hlen)
    exact ⟨[], rfl, .refl _⟩
  | succ turns ih =>
    unfold order
    dsimp only
    by_cases hpos : 0 < total (weighted weights remaining)
    · rw [if_neg (not_le.mpr hpos)]
      obtain ⟨s, hs, hweight, hpicked⟩ := picked_of_total_pos weights hdraws turn hpos
      rw [hpicked]
      have herase : remaining.erase s = remaining.filter (· != s) := hnodup.erase_eq_filter s
      have hlen' : (remaining.erase s).length ≤ turns := by
        rw [length_erase_of_mem hs]
        omega
      obtain ⟨drawn, hdrawn, hperm⟩ := @ih _ (turn + 1) hlen' (hnodup.erase s)
      refine ⟨s :: drawn, ?_, ?_⟩
      · have hkeep : (remaining.erase s).filter (fun s => weightOf weights s ≤ 0) =
            remaining.filter fun s => weightOf weights s ≤ 0 := by
          rw [herase, filter_filter]
          refine filter_congr fun t _ => ?_
          by_cases ht : t = s
          · subst ht
            simp [hweight]
          · simp [ht]
        dsimp only
        rw [hdrawn, hkeep, cons_append]
      · have hs' : s ∈ remaining.filter fun s => 0 < weightOf weights s :=
          mem_filter.mpr ⟨hs, by simpa using hweight⟩
        refine ((hperm.cons s).trans ?_).trans (perm_cons_erase hs').symm
        rw [(hnodup.filter _).erase_eq_filter, herase, filter_filter, filter_filter]
        exact (List.Perm.of_eq (filter_congr fun t _ => Bool.and_comm _ _)).cons s
    · rw [if_pos (not_lt.mp hpos)]
      have hzero : ∀ s ∈ remaining, weightOf weights s ≤ 0 := fun s hs =>
        not_lt.mp fun h => hpos ((total_pos_iff weights).mpr ⟨s, hs, h⟩)
      refine ⟨[], ?_, ?_⟩
      · rw [filter_eq_self.mpr fun s hs => by simpa using hzero s hs]
        rfl
      · rw [filter_eq_nil_iff.mpr fun s hs => by simpa using hzero s hs]

theorem head_weightedOrdering (hdraws : Draws draws) (hpos : 0 < total (weighted weights pool)) :
    (weightedOrdering weights draws pool).head? =
      walk (draws 0 * total (weighted weights pool)) 0 (weighted weights pool) := by
  obtain ⟨s, hs, -, hpicked⟩ := picked_of_total_pos weights hdraws 0 hpos
  obtain ⟨turns, hturns⟩ := Nat.exists_eq_succ_of_ne_zero (length_pos_of_mem hs).ne'
  have hwalk := picked_eq_walk (weighted_nonneg weights pool)
    (mul_nonneg (hdraws 0).1 hpos.le) (mul_lt_of_lt_one_left hpos (hdraws 0).2)
  unfold weightedOrdering
  rw [hturns, order]
  rw [if_neg (not_le.mpr hpos), hpicked, ← hwalk, hpicked]
  rfl

omit [IsStrictOrderedRing K] in
theorem get_declaredShares (hpool : pool.Nodup) (hpos : 0 < total (weighted weights pool))
    {s : String} (hs : s ∈ pool) : get (declaredShares weights pool) s =
      some (weightOf weights s * 100 / total (weighted weights pool)) := by
  unfold declaredShares
  dsimp only
  rw [update_nil ((keys_weighted weights pool).symm ▸ hpool),
    if_neg (not_le.mpr hpos), weighted, map_map]
  exact get_map_self (f := fun s => weightOf weights s * 100 / total (weighted weights pool)) hs

/-- **The draws for which a candidate leads are one interval, as long as its share.** -/
theorem head_iff (hpool : pool.Nodup) (hpos : 0 < total (weighted weights pool)) {s : String}
    (hs : s ∈ pool) : ∃ share start, get (declaredShares weights pool) s = some share ∧
      0 ≤ start ∧ start + share / 100 ≤ 1 ∧ ∀ draws, Draws draws →
        ((weightedOrdering weights draws pool).head? = some s ↔
          draws 0 ∈ Set.Ico start (start + share / 100)) := by
  obtain ⟨a, b, rfl⟩ := append_of_mem hs
  obtain ⟨-, hcons, hdisjoint⟩ := nodup_append.mp hpool
  have hsplit : weighted weights (a ++ s :: b) =
      weighted weights a ++ (s, weightOf weights s) :: weighted weights b := by
    rw [weighted, map_append, map_cons]
    rfl
  obtain ⟨T, hT⟩ : ∃ T, T = total (weighted weights (a ++ s :: b)) := ⟨_, rfl⟩
  rw [← hT] at hpos
  have hend : weightOf weights s * 100 / T / 100 = weightOf weights s / T := by
    field_simp
  refine ⟨_, total (weighted weights a) / T, get_declaredShares weights hpool (hT ▸ hpos) hs, ?_, ?_,
    fun draws hdraws => ?_⟩
  · exact div_nonneg (total_nonneg (weighted_nonneg weights _)) hpos.le
  · rw [← hT, hend, ← add_div, div_le_one hpos, hT, hsplit, total_append, total_cons, ← add_assoc]
    exact le_add_of_nonneg_right (total_nonneg (weighted_nonneg weights _))
  · have hbefore : s ∉ (weighted weights a).map Prod.fst := by
      rw [keys_weighted]
      exact fun h => hdisjoint s h s mem_cons_self rfl
    have hafter : s ∉ (weighted weights b).map Prod.fst := by
      rw [keys_weighted]
      exact (nodup_cons.mp hcons).1
    rw [head_weightedOrdering weights hdraws (hT ▸ hpos), ← hT, hsplit,
      walk_eq_some_iff (weighted_nonneg weights _) hbefore hafter
        (mul_nonneg (hdraws 0).1 hpos.le), zero_add, Set.mem_Ico, hend, ← add_div,
      div_le_iff₀ hpos, lt_div_iff₀ hpos]

/-- **The declared split is the split that runs.**  Every ordering is one of the whole pool with the
drained candidates last and as declared, and each candidate leads for one interval of draws as long
as its share. -/
theorem weighted_ordering_honours_shares (hpool : pool.Nodup)
    (hweight : ∃ s ∈ pool, 0 < weightOf weights s) : (∀ draws, Draws draws →
      (weightedOrdering weights draws pool).Perm pool ∧
      ∃ drawn, weightedOrdering weights draws pool =
          drawn ++ pool.filter (fun s => weightOf weights s = 0) ∧
        ∀ s ∈ drawn, 0 < weightOf weights s) ∧
    ∀ s ∈ pool, ∃ share start, get (declaredShares weights pool) s = some share ∧
      0 ≤ start ∧ start + share / 100 ≤ 1 ∧ ∀ draws, Draws draws →
        ((weightedOrdering weights draws pool).head? = some s ↔
          draws 0 ∈ Set.Ico start (start + share / 100)) := by
  refine ⟨fun draws hdraws => ?_, fun s hs =>
    head_iff weights hpool ((total_pos_iff weights).mpr hweight) hs⟩
  obtain ⟨drawn, heq, hperm⟩ := @order_split K _ _ _ weights draws pool hdraws pool.length 0 (le_refl _) hpool
  have hzero : pool.filter (fun s => weightOf weights s ≤ 0) =
      pool.filter fun s => weightOf weights s = 0 :=
    List.filter_congr fun s _ => by
      simp [le_antisymm_iff, weightOf_nonneg weights s]
  have hrest : pool.filter (fun s => weightOf weights s ≤ 0) =
      pool.filter fun s => !decide (0 < weightOf weights s) :=
    List.filter_congr fun s _ => (decide_eq_decide.mpr not_lt.symm).trans decide_not
  refine ⟨?_, drawn, heq.trans (by rw [hzero]), fun s hs => ?_⟩
  · refine (List.Perm.of_eq heq).trans ((hperm.append_right _).trans ?_)
    rw [hrest]
    exact List.filter_append_perm _ _
  · simpa using (List.mem_filter.mp (hperm.mem_iff.mp hs)).2

end

/-- A 70/30 split, with a drained candidate between the two. -/
theorem weighted_ordering_seventy_thirty :
    ∃ share start, get (declaredShares [("a", 70), ("c", (30 : ℚ))] ["a", "b", "c"]) "c" =
        some share ∧ 0 ≤ start ∧ start + share / 100 ≤ 1 ∧ ∀ draws, Draws draws →
      ((weightedOrdering [("a", 70), ("c", 30)] draws ["a", "b", "c"]).head? = some "c" ↔
        draws 0 ∈ Set.Ico start (start + share / 100)) :=
  (weighted_ordering_honours_shares [("a", 70), ("c", (30 : ℚ))] (by decide)
    ⟨"a", by decide, by decide +kernel⟩).2 "c" (by decide)

/-- A draw on the boundary goes to the next candidate with a weight. -/
example : weightedOrdering [("a", 70), ("c", 30)] (fun _ => (7 / 10 : ℚ)) ["a", "b", "c"] =
    ["c", "a", "b"] := by
  decide +kernel

end Otari.Routing.Weighted

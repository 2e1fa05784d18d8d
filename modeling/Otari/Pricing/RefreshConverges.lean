import Otari.Pricing.PriceGenerations

/-!
# Pricing — RefreshConverges — every worker comes to the accepted prices

A worker that rebuilds, and one that adds a generation to what a rebuild gave, hold the same
generations (`add_residentGenerations`).  What the accept in flight and the rebuild in flight know is
their ghost value (`Task`); `refresh_converges` is what that gives for a completed tick.
-/

namespace Otari.Refresh
open Threads
open List hiding isEmpty_iff
open Otari.Pricing (Instant)

/-! ### The resident generations -/

variable {α : Type} {l : List α}

theorem takeLast_eq_self {n : ℕ} (h : l.length ≤ n) : takeLast n l = l := by
  rw [takeLast, Nat.sub_eq_zero_of_le h, drop_zero]

theorem takeLast_eq_reverse (n : ℕ) (l : List α) : takeLast n l = (l.reverse.take n).reverse := by
  rw [takeLast, take_reverse, reverse_reverse]

theorem length_takeLast (n : ℕ) (l : List α) : (takeLast n l).length = min n l.length := by
  rw [takeLast, length_drop]
  omega

theorem takeLast_sublist (n : ℕ) (l : List α) : (takeLast n l).Sublist l :=
  drop_sublist _ _

theorem takeLast_takeLast {m n : ℕ} (h : m ≤ n) (l : List α) :
    takeLast m (takeLast n l) = takeLast m l := by
  rw [takeLast_eq_reverse m (takeLast n l), takeLast_eq_reverse n l, reverse_reverse,
    take_take, Nat.min_eq_left h, ← takeLast_eq_reverse]

theorem takeLast_concat (n : ℕ) (l : List α) (a : α) :
    takeLast (n + 1) (l ++ [a]) = takeLast n l ++ [a] := by
  rw [takeLast_eq_reverse, takeLast_eq_reverse]
  simp

theorem filterMap_drop {β : Type} {f : α → Option β} (h : ∀ a ∈ l, (f a).isSome = true) (k : ℕ) :
    (l.drop k).filterMap f = (l.filterMap f).drop k := by
  induction l generalizing k with
  | nil => simp
  | cons a l ih =>
    obtain ⟨b, hb⟩ := Option.isSome_iff_exists.mp (h a mem_cons_self)
    cases k with
    | zero => rfl
    | succ k =>
      rw [filterMap_cons_some hb, drop_succ_cons, drop_succ_cons]
      exact ih (fun c hc => h c (mem_cons_of_mem a hc)) k

theorem length_filterMap {β : Type} {f : α → Option β}
    (h : ∀ a ∈ l, (f a).isSome = true) : (l.filterMap f).length = l.length := by
  induction l with
  | nil => rfl
  | cons a l ih =>
    obtain ⟨b, hb⟩ := Option.isSome_iff_exists.mp (h a mem_cons_self)
    rw [filterMap_cons_some hb, length_cons, length_cons,
      ih fun c hc => h c (mem_cons_of_mem a hc)]

theorem filterMap_takeLast {β : Type} {f : α → Option β}
    (h : ∀ a ∈ l, (f a).isSome = true) (n : ℕ) :
    (takeLast n l).filterMap f = takeLast n (l.filterMap f) := by
  rw [takeLast, takeLast, filterMap_drop h, length_filterMap h]

theorem insertionSort_eq_of_strict {r : α → α → Prop} [DecidableRel r] [Std.Total r]
    [IsTrans α r] {l' : List α} (hp : l'.Perm l) (h : l.Pairwise fun a b => r a b ∧ ¬ r b a) :
    l'.insertionSort r = l := by
  refine List.Perm.eq_of_pairwise (fun a b ha hb hab hba => ?_) (pairwise_insertionSort r l')
    (h.imp And.left) ((perm_insertionSort r l').trans hp)
  by_contra hne
  obtain ⟨i, hi, rfl⟩ := getElem_of_mem (hp.mem_iff.mp ((mem_insertionSort r).mp ha))
  obtain ⟨j, hj, rfl⟩ := getElem_of_mem hb
  rcases lt_trichotomy i j with hij | rfl | hij
  · exact (pairwise_iff_getElem.mp h i j hi hj hij).2 hba
  · exact hne rfl
  · exact (pairwise_iff_getElem.mp h j i hj hi hij).2 hab

section
variable {Index : Type}

instance instTotalNoLater : Std.Total fun a b : PriceGeneration Index => a.noLater b = true where
  total a b := by
    cases ha : a.effectiveAt <;> cases hb : b.effectiveAt <;>
      simp [PriceGeneration.noLater, PriceGeneration.inEffect, ha, hb, le_total]

instance instTransNoLater :
    IsTrans (PriceGeneration Index) fun a b => a.noLater b = true where
  trans a b c := by
    cases ha : a.effectiveAt <;> cases hb : b.effectiveAt <;> cases hc : c.effectiveAt <;>
      simp [PriceGeneration.noLater, PriceGeneration.inEffect, ha, hb, hc]
    exact le_trans

end

section
variable {Snapshot Digest Index : Type} (reader : Reader Snapshot Digest Index)

/-- Accepted in this order, at different instants, under ids of their own. -/
structure Ordered (history : List (HistoryRow Snapshot)) : Prop where
  acceptedAt : history.Pairwise fun a b => a.acceptedAt < b.acceptedAt
  id : history.Pairwise fun a b => a.id < b.id
  parses : ∀ row ∈ history, (reader.parse row.snapshot).isSome = true

def generationOf (row : HistoryRow Snapshot) : Option (PriceGeneration Index) :=
  (reader.parse row.snapshot).map fun index => ⟨some row.acceptedAt, index, false⟩

def residentGenerations (history : List (HistoryRow Snapshot)) : Generations Index where
  accepted := takeLast maxResidentGenerations (history.filterMap (generationOf reader))
  complete := decide (history.length ≤ maxResidentGenerations)

variable {reader} {history : List (HistoryRow Snapshot)}

theorem Ordered.sublist (h : Ordered reader history) {rows : List (HistoryRow Snapshot)}
    (hs : rows.Sublist history) : Ordered reader rows :=
  ⟨h.acceptedAt.sublist hs, h.id.sublist hs, fun row hr => h.parses row (hs.subset hr)⟩

variable {row : HistoryRow Snapshot}

theorem Ordered.concat (h : Ordered reader history)
    (ha : ∀ other ∈ history, other.acceptedAt < row.acceptedAt)
    (hi : ∀ other ∈ history, other.id < row.id) (hp : (reader.parse row.snapshot).isSome = true) :
    Ordered reader (history ++ [row]) := by
  refine ⟨?_, ?_, ?_⟩
  · exact pairwise_append.mpr ⟨h.acceptedAt, pairwise_singleton _ _,
      fun a hmem b hb => mem_singleton.mp hb ▸ ha a hmem⟩
  · exact pairwise_append.mpr ⟨h.id, pairwise_singleton _ _,
      fun a hmem b hb => mem_singleton.mp hb ▸ hi a hmem⟩
  · intro other hmem
    rcases mem_append.mp hmem with hmem | hmem
    · exact h.parses other hmem
    · exact mem_singleton.mp hmem ▸ hp

theorem newest_eq (h : Ordered reader history) (limit : ℕ) :
    newest history limit = (takeLast limit history).reverse := by
  have hsorted : history.insertionSort (fun a b => b.acceptedAt ≤ a.acceptedAt) =
      history.reverse := by
    refine insertionSort_eq_of_strict (reverse_perm history).symm ?_
    exact pairwise_reverse.mpr (h.acceptedAt.imp fun hlt => ⟨hlt.le, not_le.mpr hlt⟩)
  rw [newest, hsorted, takeLast_eq_reverse, reverse_reverse]

theorem Ordered.isSome_generationOf (h : Ordered reader history) :
    ∀ row ∈ history, (generationOf reader row).isSome = true := by
  intro row hr
  rw [generationOf, Option.isSome_map]
  exact h.parses row hr

theorem Ordered.strict (h : Ordered reader history) :
    (history.filterMap (generationOf reader)).Pairwise fun a b =>
      a.noLater b = true ∧ ¬ b.noLater a = true := by
  rw [pairwise_filterMap]
  refine h.acceptedAt.imp fun {a b} hlt => ?_
  intro g hg g' hg'
  obtain ⟨_, _, rfl⟩ := Option.map_eq_some_iff.mp hg
  obtain ⟨_, _, rfl⟩ := Option.map_eq_some_iff.mp hg'
  simp [PriceGeneration.noLater, PriceGeneration.inEffect, hlt.le, hlt]

theorem setAccepted_eq (h : Ordered reader history) {n : ℕ} (hn : maxResidentGenerations ≤ n)
    {generations : List (PriceGeneration Index)}
    (hp : generations.Perm ((takeLast n history).filterMap (generationOf reader)))
    (complete : Bool) : setAcceptedGenerations generations complete =
      ⟨takeLast maxResidentGenerations (history.filterMap (generationOf reader)),
        complete && decide (min n history.length ≤ maxResidentGenerations)⟩ := by
  have hlast := h.sublist (takeLast_sublist n history)
  have hlength : ((takeLast n history).filterMap (generationOf reader)).length =
      min n history.length := by
    rw [length_filterMap hlast.isSome_generationOf, length_takeLast]
  simp only [setAcceptedGenerations]
  rw [insertionSort_eq_of_strict hp hlast.strict, hlength]
  have htake : takeLast maxResidentGenerations
      ((takeLast n history).filterMap (generationOf reader)) =
      takeLast maxResidentGenerations (history.filterMap (generationOf reader)) := by
    rw [filterMap_takeLast h.isSome_generationOf, takeLast_takeLast hn]
  split_ifs with hlt
  · rw [htake, decide_eq_false (by omega), Bool.and_false]
  · rw [decide_eq_true (not_lt.mp hlt), Bool.and_true, ← htake,
      takeLast_eq_self (hlength.trans_le (not_lt.mp hlt))]

theorem filter_id_takeLast (h : Ordered reader history) (n : ℕ) :
    (history.filter fun row => decide (row.id ∈ (takeLast n history).map (·.id))) =
      takeLast n history := by
  have hsplit : history.take (history.length - n) ++ takeLast n history = history :=
    take_append_drop _ _
  have hids := h.id
  rw [← hsplit, pairwise_append] at hids
  have hfirst : (history.take (history.length - n)).filter
      (fun row => decide (row.id ∈ (takeLast n history).map (·.id))) = [] := by
    rw [filter_eq_nil_iff]
    intro row hr hmem
    obtain ⟨other, ho, he⟩ := mem_map.mp (of_decide_eq_true hmem)
    exact absurd he (hids.2.2 row hr other ho).ne'
  have hlast : (takeLast n history).filter
      (fun row => decide (row.id ∈ (takeLast n history).map (·.id))) = takeLast n history := by
    rw [filter_eq_self]
    exact fun row hr => decide_eq_true (mem_map_of_mem hr)
  calc (history.filter fun row => decide (row.id ∈ (takeLast n history).map (·.id)))
      = (history.take (history.length - n) ++ takeLast n history).filter
          (fun row => decide (row.id ∈ (takeLast n history).map (·.id))) := by rw [hsplit]
    _ = takeLast n history := by rw [filter_append, hfirst, hlast, nil_append]

theorem pruneHistory_eq (h : Ordered reader history) :
    pruneHistory history = (takeLast pricingSnapshotHistoryKeep history,
      decide (pricingSnapshotHistoryKeep ≤ history.length)) := by
  have hids : (newest history pricingSnapshotHistoryKeep).map (·.id) =
      ((takeLast pricingSnapshotHistoryKeep history).map (·.id)).reverse := by
    rw [newest_eq h, map_reverse]
  simp only [pruneHistory, hids, length_reverse, length_map, length_takeLast,
    mem_reverse]
  split_ifs with hlt
  · rw [takeLast_eq_self (by omega), decide_eq_false (by omega)]
  · rw [filter_id_takeLast h, decide_eq_true (by omega)]

/-- **An accept adds what a rebuild would find.**  The history is as the accept leaves it, with or
without what it pruned. -/
theorem add_residentGenerations {generation : PriceGeneration Index}
    (h : Ordered reader (history ++ [row])) (hg : generationOf reader row = some generation) :
    addAcceptedGeneration (residentGenerations reader history) generation
        (pruneHistory (history ++ [row])).2 =
      residentGenerations reader (pruneHistory (history ++ [row])).1 := by
  have hhistory := h.sublist (sublist_append_left history [row])
  have hconcat : (history ++ [row]).filterMap (generationOf reader) =
      history.filterMap (generationOf reader) ++ [generation] := by
    rw [filterMap_append, filterMap_cons_some hg, filterMap_nil]
  have hadded : (residentGenerations reader history).accepted ++ [generation] =
      (takeLast (maxResidentGenerations + 1) (history ++ [row])).filterMap
        (generationOf reader) := by
    rw [filterMap_takeLast h.isSome_generationOf, hconcat, takeLast_concat]
    rfl
  rw [addAcceptedGeneration, setAccepted_eq h (Nat.le_succ _) (List.Perm.of_eq hadded),
    pruneHistory_eq h]
  simp only [residentGenerations]
  rw [filterMap_takeLast h.isSome_generationOf, takeLast_takeLast (by decide), length_takeLast]
  congr 1
  rw [Bool.eq_iff_iff]
  simp only [Bool.and_eq_true, Bool.not_eq_true', decide_eq_true_eq, decide_eq_false_iff_not,
    length_append, length_singleton]
  simp only [pricingSnapshotHistoryKeep, maxResidentGenerations]
  omega

theorem rebuild_eq [DecidableEq Snapshot] (h : Ordered reader history)
    (hrow : history.getLast? = some row) {active : ActiveRow Snapshot}
    (ha : row.snapshot = active.snapshot) :
    rebuild reader active (newest history (maxResidentGenerations + 1)) =
      some (residentGenerations reader history) := by
  have hlast := h.sublist (takeLast_sublist (maxResidentGenerations + 1) history)
  have hmem : row ∈ takeLast (maxResidentGenerations + 1) history := by
    have hne : history ≠ [] := fun he => by simp [he] at hrow
    rw [takeLast_eq_reverse, mem_reverse]
    obtain ⟨start, rfl⟩ := List.getLast?_eq_some_iff.mp hrow
    simp
  have hbuilt : buildGenerations reader (takeLast (maxResidentGenerations + 1) history).reverse
      active = (takeLast (maxResidentGenerations + 1) history).reverse.filterMap
        (generationOf reader) := by
    have hcarried : ¬ (((takeLast (maxResidentGenerations + 1) history).reverse.map fun row =>
        (row.acceptedAt, row.snapshot)).all fun row => decide (row.2 ≠ active.snapshot)) = true := by
      rw [all_eq_true]
      intro hall
      have hrow := hall _ (mem_map_of_mem (mem_reverse.mpr hmem))
      simp [ha] at hrow
    rw [buildGenerations, if_neg hcarried, filterMap_map]
    rfl
  have hperm : ((takeLast (maxResidentGenerations + 1) history).reverse.filterMap
      (generationOf reader)).Perm ((takeLast (maxResidentGenerations + 1) history).filterMap
        (generationOf reader)) := (reverse_perm _).filterMap _
  have hfound : ¬ ((takeLast (maxResidentGenerations + 1) history).reverse.filterMap
      (generationOf reader)).isEmpty = true := by
    obtain ⟨generation, hg⟩ := Option.isSome_iff_exists.mp (hlast.isSome_generationOf row hmem)
    rw [List.isEmpty_iff, ← ne_eq, ← length_pos_iff_ne_nil]
    exact length_pos_of_mem (mem_filterMap.mpr ⟨row, mem_reverse.mpr hmem, hg⟩)
  simp only [rebuild]
  rw [newest_eq h, hbuilt, if_neg hfound, setAccepted_eq h (Nat.le_succ _) hperm]
  simp only [residentGenerations, length_reverse, length_takeLast]
  congr 2
  rw [Bool.eq_iff_iff]
  simp only [Bool.and_eq_true, decide_eq_true_eq]
  simp only [pricingSnapshotHistoryKeep, maxResidentGenerations]
  omega

theorem loadedGenerations_eq [DecidableEq Snapshot] {db : Database Snapshot}
    (h : Ordered reader db.history)
    (ha : match db.active with
      | none => db.history = []
      | some active => ∃ row, db.history.getLast? = some row ∧ row.snapshot = active.snapshot) :
    loadedGenerations reader db = residentGenerations reader db.history := by
  rw [loadedGenerations]
  cases hactive : db.active with
  | none =>
    rw [hactive] at ha
    rw [ha]
    rfl
  | some active =>
    rw [hactive] at ha
    obtain ⟨row, hrow, hsnapshot⟩ := ha
    simp only
    rw [rebuild_eq h hrow hsnapshot, Option.getD_some]

end

/-! ### The condition and the invariant -/

section
variable {Snapshot Digest Index : Type}

/-- **The condition of each step.**  A worker accepts only when it holds the last accept and no other
of its accepts is under way, at an instant of its own; the marker it reads is its own accept's; and no
rebuild replaces its generations before its accept is added, nor an older one before its marker. -/
def Condition (l : Label) (s : PriceState Snapshot Index) : Prop :=
  match l with
  | .commit w => s.db.pending.isSome = true → (s.workers w).accepting = none ∧
      (s.workers w).appliedUpdatedAt = s.db.marker ∧
      ∀ row ∈ s.db.history, row.acceptedAt < s.clock
  | .readMarker own => s.db.marker = some own
  | .apply w marker => ∀ accept ∈ (s.workers w).accepting,
      accept.2 = true ∧ (s.db.marker = some accept.1 → marker = accept.1)
  | _ => True

/-- What a thread is doing: an accept committed or added under its own `updated_at`, or a worker
between its ticks, with a tick begun, with the active row, or with the rows to rebuild from. -/
inductive Task (Snapshot Index : Type) where
  | idle
  | committed (w : ℕ) (own : Instant) (generation : PriceGeneration Index) (pruned : Bool)
  | added (w : ℕ) (own : Instant)
  | worker (w : ℕ)
  | began (w : ℕ) (saw : Option Instant)
  | active (w : ℕ) (row : ActiveRow Snapshot) (tick : Option (Option Instant))
  | rows (w : ℕ) (row : ActiveRow Snapshot) (tick : Option (Option Instant))
      (history : List (HistoryRow Snapshot))

/-- The worker a thread runs, or the `updated_at` it accepts under. -/
def Task.key : Task Snapshot Index → Option (ℕ ⊕ Instant)
  | idle => none
  | committed _ own _ _ => some (.inr own)
  | added _ own => some (.inr own)
  | worker w => some (.inl w)
  | began w _ => some (.inl w)
  | active w _ _ => some (.inl w)
  | rows w _ _ _ => some (.inl w)

variable (reader : Reader Snapshot Digest Index) (s : PriceState Snapshot Index)

/-- The active row is as new as what the tick began with, and as the last tick. -/
structure Recent (w : ℕ) (row : ActiveRow Snapshot) (tick : Option (Option Instant)) : Prop where
  started : w ∈ s.started
  written : row.updatedAt ∈ s.written
  same : s.db.marker = some row.updatedAt → s.db.active = some row
  last : (s.workers w).lastTick = some s.db.marker → s.db.marker = some row.updatedAt
  tick : ∀ saw, tick = some saw →
    (∀ u, saw = some u → u ∈ s.written) ∧ (s.db.marker = saw → s.db.marker = some row.updatedAt)

/-- What a thread's task says of the store. -/
def Task.Sound : Task Snapshot Index → Prop
  | idle => True
  | committed w own generation pruned => (s.workers w).accepting = some (own, false) ∧
      own ∈ s.written ∧ (s.db.marker = some own →
        addAcceptedGeneration (s.workers w).generations generation pruned =
          residentGenerations reader s.db.history)
  | added w own => (s.workers w).accepting = some (own, true) ∧ own ∈ s.written ∧
      (s.db.marker = some own →
        (s.workers w).generations = residentGenerations reader s.db.history)
  | worker w => w ∈ s.started
  | began w saw => w ∈ s.started ∧ ∀ u, saw = some u → u ∈ s.written
  | active w row tick => Recent s w row tick
  | rows w row tick history => Recent s w row tick ∧ (s.db.marker = some row.updatedAt →
      history = newest s.db.history (maxResidentGenerations + 1))

/-- What holds of a worker's memory. -/
structure WorkerSound (w : Worker Index) : Prop where
  applied : ∀ u, w.appliedUpdatedAt = some u → u ∈ s.written
  ticked : ∀ u, w.lastTick = some (some u) → u ∈ s.written
  accepting : ∀ accept ∈ w.accepting, accept.1 ∈ s.written ∧
    (accept.2 = false → w.appliedUpdatedAt ≠ s.db.marker)
  /-- A worker that has applied the last accept holds what a rebuild gives. -/
  current : w.appliedUpdatedAt = s.db.marker →
    w.generations = residentGenerations reader s.db.history
  /-- So does one with a tick completed since. -/
  converged : w.lastTick = some s.db.marker →
    w.generations = residentGenerations reader s.db.history ∧
      ∀ accept ∈ w.accepting, accept.2 = true

/-- What holds of the store alone. -/
structure RefreshShared : Prop where
  ordered : Ordered reader s.db.history
  ids : ∀ row ∈ s.db.history, row.id < s.db.accepts
  empty : s.db.active = none → s.db.history = [] ∧ s.written = []
  active : ∀ row, s.db.active = some row → row.updatedAt ∈ s.written ∧
    ∃ last, s.db.history.getLast? = some last ∧ last.snapshot = row.snapshot
  workers : ∀ w, WorkerSound reader s (s.workers w)

/-- **The invariant of every interleaving.** -/
structure RefreshInv (n : ℕ) (s : PriceState Snapshot Index)
    (γ : ℕ → Task Snapshot Index) : Prop where
  shared : RefreshShared reader s
  sound : ∀ t, (γ t).Sound reader s
  apart : ∀ t t', t ≠ t' → (γ t).key ≠ none → (γ t).key ≠ (γ t').key

variable {reader s} {n t : ℕ} {s' : PriceState Snapshot Index} {γ : ℕ → Task Snapshot Index}
  {g g' : Task Snapshot Index}

theorem RefreshInv.update (h : RefreshInv reader n s γ) (hshared : RefreshShared reader s')
    (hothers : ∀ u, u ≠ t → (γ u).Sound reader s') (hself : g'.Sound reader s')
    (hapart : ∀ u, u ≠ t → g'.key ≠ none → g'.key ≠ (γ u).key) :
    RefreshInv reader n s' (Function.update γ t g') := by
  refine ⟨hshared, fun u => ?_, fun u u' hne hk => ?_⟩
  · by_cases hut : u = t
    · subst hut
      rwa [Function.update_self]
    · rw [Function.update_of_ne hut]
      exact hothers u hut
  · by_cases hut : u = t
    · subst hut
      rw [Function.update_self] at hk ⊢
      rw [Function.update_of_ne (Ne.symm hne)]
      exact hapart u' (Ne.symm hne) hk
    · rw [Function.update_of_ne hut] at hk ⊢
      by_cases hut' : u' = t
      · subst hut'
        rw [Function.update_self]
        intro he
        exact hapart u hut (he ▸ hk) he.symm
      · rw [Function.update_of_ne hut']
        exact h.apart u u' hne hk

theorem RefreshInv.know (h : RefreshInv reader n s γ) (hg : γ t = g) (hself : g'.Sound reader s)
    (hkey : g'.key = g.key) : RefreshInv reader n s (Function.update γ t g') := by
  refine h.update h.shared (fun u _ => h.sound u) hself fun u hu hk => ?_
  rw [hkey, ← hg] at hk ⊢
  exact h.apart t u (Ne.symm hu) hk

/-! ### What an act leaves of the other tasks -/

@[simp] theorem workers_change (w v : ℕ) (f : Worker Index → Worker Index) :
    (s.change w f).workers v = if v = w then f (s.workers w) else s.workers v := by
  rw [PriceState.change]
  by_cases hv : v = w
  · subst hv
    simp
  · simp [hv]

@[simp] theorem db_change (w : ℕ) (f : Worker Index → Worker Index) : (s.change w f).db = s.db := rfl

@[simp] theorem written_change (w : ℕ) (f : Worker Index → Worker Index) :
    (s.change w f).written = s.written := rfl

@[simp] theorem started_change (w : ℕ) (f : Worker Index → Worker Index) :
    (s.change w f).started = s.started := rfl

variable {w : ℕ} {f : Worker Index → Worker Index}

theorem Recent.change {v : ℕ} {row : ActiveRow Snapshot} {tick : Option (Option Instant)}
    (h : Recent s v row tick) (hf : v = w → (f (s.workers w)).lastTick = (s.workers w).lastTick) :
    Recent (s.change w f) v row tick where
  started := h.started
  written := h.written
  same := h.same
  last := by
    rw [workers_change]
    split_ifs with hv
    · rw [hf hv, ← hv]
      exact h.last
    · exact h.last
  tick := h.tick

/-- A change of one worker that keeps its last tick from the worker's own tasks, and its accept from
the accept's own. -/
theorem Task.Sound.change (h : g.Sound reader s)
    (htick : g.key = some (.inl w) → (f (s.workers w)).lastTick = (s.workers w).lastTick)
    (haccept : ∀ accept ∈ (s.workers w).accepting, g.key = some (.inr accept.1) →
      (f (s.workers w)).accepting = (s.workers w).accepting ∧
        ((f (s.workers w)).generations = (s.workers w).generations ∨ accept.2 = true ∧
          (s.db.marker = some accept.1 →
            (f (s.workers w)).generations = residentGenerations reader s.db.history))) :
    g.Sound reader (s.change w f) := by
  cases g with
  | idle => trivial
  | committed v own generation pruned =>
    obtain ⟨ha, hw, hg⟩ := h
    by_cases hv : v = w
    · subst hv
      obtain ⟨hsame, hkept | ⟨hadded, -⟩⟩ := haccept (own, false) ha rfl
      · refine ⟨?_, hw, ?_⟩
        · rw [workers_change, if_pos rfl, hsame]
          exact ha
        · rw [workers_change, if_pos rfl, hkept]
          exact hg
      · cases hadded
    · refine ⟨?_, hw, ?_⟩
      · rw [workers_change, if_neg hv]
        exact ha
      · rw [workers_change, if_neg hv]
        exact hg
  | added v own =>
    obtain ⟨ha, hw, hg⟩ := h
    by_cases hv : v = w
    · subst hv
      obtain ⟨hsame, hres⟩ := haccept (own, true) ha rfl
      refine ⟨?_, hw, fun hm => ?_⟩
      · rw [workers_change, if_pos rfl, hsame]
        exact ha
      · rw [workers_change, if_pos rfl]
        exact hres.elim (fun hkept => hkept.trans (hg hm)) fun h => h.2 hm
    · refine ⟨?_, hw, ?_⟩
      · rw [workers_change, if_neg hv]
        exact ha
      · rw [workers_change, if_neg hv]
        exact hg
  | worker v => exact h
  | began v saw => exact h
  | active v row tick =>
    exact Recent.change h fun hv => htick (by rw [hv]; rfl)
  | rows v row tick history =>
    exact ⟨Recent.change h.1 fun hv => htick (by rw [hv]; rfl), h.2⟩

theorem Task.Sound.own_written (h : g.Sound reader s) {own : Instant}
    (hk : g.key = some (.inr own)) : own ∈ s.written := by
  cases g with
  | committed v u generation pruned =>
    cases hk
    exact h.2.1
  | added v u =>
    cases hk
    exact h.2.1
  | _ => cases hk

theorem Task.Sound.worker_started (h : g.Sound reader s) (hk : g.key = some (.inl w)) :
    w ∈ s.started := by
  cases g with
  | worker v =>
    cases hk
    exact h
  | began v saw =>
    cases hk
    exact h.1
  | active v row tick =>
    cases hk
    exact Recent.started h
  | rows v row tick history =>
    cases hk
    exact h.1.started
  | _ => cases hk

/-! ### Commits -/

def PriceState.committed (s : PriceState Snapshot Index) (w : ℕ) (raw : Snapshot) (u : Instant) :
    PriceState Snapshot Index :=
  (s.accept raw u).1.change w fun worker => { worker with accepting := some (u, false) }

section
variable {w : ℕ} {raw : Snapshot} {u : Instant}

@[simp] theorem marker_committed : (s.committed w raw u).db.marker = some u := rfl

@[simp] theorem written_committed : (s.committed w raw u).written = u :: s.written := rfl

@[simp] theorem started_committed : (s.committed w raw u).started = s.started := rfl

@[simp] theorem history_committed : (s.committed w raw u).db.history =
    (pruneHistory (s.db.history ++ [⟨s.db.accepts, s.clock, raw⟩])).1 := rfl

theorem workers_committed (v : ℕ) : (s.committed w raw u).workers v =
    if v = w then { s.workers v with accepting := some (u, false) } else s.workers v := by
  rw [PriceState.committed, workers_change]
  split_ifs with hv
  · rw [hv]
    rfl
  · rfl

theorem lastTick_committed (v : ℕ) :
    ((s.committed w raw u).workers v).lastTick = (s.workers v).lastTick := by
  rw [workers_committed]
  split_ifs <;> rfl

theorem RefreshShared.not_ticked (h : RefreshShared reader s) (hu : u ∉ s.written) (v : ℕ) :
    ((s.committed w raw u).workers v).lastTick ≠ some (s.committed w raw u).db.marker := by
  rw [lastTick_committed, marker_committed]
  exact fun he => hu ((h.workers v).ticked u he)

theorem Recent.committed {v : ℕ} {row : ActiveRow Snapshot} {tick : Option (Option Instant)}
    (h : Recent s v row tick) (hs : RefreshShared reader s) (hu : u ∉ s.written) :
    Recent (s.committed w raw u) v row tick where
  started := h.started
  written := mem_cons_of_mem u h.written
  same he := by
    rw [marker_committed] at he
    exact absurd (Option.some.inj he ▸ h.written) hu
  last he := absurd he (hs.not_ticked hu v)
  tick saw hsaw := by
    obtain ⟨hwritten, -⟩ := h.tick saw hsaw
    refine ⟨fun v hv => mem_cons_of_mem u (hwritten v hv), fun he => ?_⟩
    rw [marker_committed] at he
    exact absurd (hwritten u he.symm) hu

theorem Task.Sound.committed (h : g.Sound reader s) (hs : RefreshShared reader s)
    (hu : u ∉ s.written) (hidle : (s.workers w).accepting = none) :
    g.Sound reader (s.committed w raw u) := by
  have hfresh : ∀ own ∈ s.written, (s.committed w raw u).db.marker ≠ some own := by
    intro own hown he
    rw [marker_committed] at he
    exact hu (Option.some.inj he ▸ hown)
  cases g with
  | idle => trivial
  | committed v own generation pruned =>
    obtain ⟨ha, hw, -⟩ := h
    have hv : v ≠ w := by
      rintro rfl
      rw [hidle] at ha
      cases ha
    refine ⟨?_, mem_cons_of_mem u hw, fun he => absurd he (hfresh own hw)⟩
    rw [workers_committed, if_neg hv]
    exact ha
  | added v own =>
    obtain ⟨ha, hw, -⟩ := h
    have hv : v ≠ w := by
      rintro rfl
      rw [hidle] at ha
      cases ha
    refine ⟨?_, mem_cons_of_mem u hw, fun he => absurd he (hfresh own hw)⟩
    rw [workers_committed, if_neg hv]
    exact ha
  | worker v => exact h
  | began v saw =>
    exact ⟨h.1, fun x hx => mem_cons_of_mem u (h.2 x hx)⟩
  | active v row tick => exact Recent.committed h hs hu
  | rows v row tick history =>
    exact ⟨h.1.committed hs hu, fun he => absurd he (hfresh _ h.1.written)⟩

theorem WorkerSound.committed {v : ℕ} (h : RefreshShared reader s) (hu : u ∉ s.written) :
    WorkerSound reader (s.committed w raw u) ((s.committed w raw u).workers v) := by
  have hv := h.workers v
  have happlied : ((s.committed w raw u).workers v).appliedUpdatedAt =
      (s.workers v).appliedUpdatedAt := by
    rw [workers_committed]
    split_ifs <;> rfl
  have hstale : ((s.committed w raw u).workers v).appliedUpdatedAt ≠
      (s.committed w raw u).db.marker := by
    rw [happlied, marker_committed]
    exact fun he => hu (hv.applied u he)
  refine ⟨?_, ?_, ?_, fun he => absurd he hstale, fun he => absurd he (h.not_ticked hu v)⟩
  · intro x hx
    rw [happlied] at hx
    exact mem_cons_of_mem u (hv.applied x hx)
  · intro x hx
    rw [lastTick_committed] at hx
    exact mem_cons_of_mem u (hv.ticked x hx)
  · intro accept ha
    refine ⟨?_, fun _ => hstale⟩
    rw [workers_committed] at ha
    split_ifs at ha
    · cases ha
      exact mem_cons_self
    · exact mem_cons_of_mem u (hv.accepting accept ha).1

theorem getLast?_takeLast {α : Type} {k : ℕ} (hk : k ≠ 0) (l : List α) :
    (takeLast k l).getLast? = l.getLast? := by
  rw [takeLast_eq_reverse, List.getLast?_reverse, List.head?_take, if_neg hk, List.head?_reverse]

theorem RefreshShared.committed {index : Index} (h : RefreshShared reader s) (hu : u ∉ s.written)
    (hclock : ∀ row ∈ s.db.history, row.acceptedAt < s.clock)
    (hp : reader.parse raw = some index) : RefreshShared reader (s.committed w raw u) := by
  have hordered : Ordered reader (s.db.history ++ [⟨s.db.accepts, s.clock, raw⟩]) :=
    h.ordered.concat hclock h.ids (by rw [hp]; rfl)
  have hhistory : (s.committed w raw u).db.history = takeLast pricingSnapshotHistoryKeep
      (s.db.history ++ [⟨s.db.accepts, s.clock, raw⟩]) := by
    rw [history_committed, pruneHistory_eq hordered]
  refine ⟨?_, ?_, fun he => (by cases he), ?_, fun v => WorkerSound.committed h hu⟩
  · rw [hhistory]
    exact hordered.sublist (takeLast_sublist _ _)
  · rw [hhistory]
    intro row hr
    show row.id < s.db.accepts + 1
    rcases mem_append.mp ((takeLast_sublist _ _).subset hr) with hr | hr
    · exact Nat.lt_succ_of_lt (h.ids row hr)
    · rw [mem_singleton.mp hr]
      exact Nat.lt_succ_self _
  · intro row hrow
    cases hrow
    refine ⟨mem_cons_self, ⟨s.db.accepts, s.clock, raw⟩, ?_, rfl⟩
    rw [hhistory, getLast?_takeLast (by decide), List.getLast?_concat]

theorem committed_sound {index : Index} (h : RefreshShared reader s)
    (hcurrent : (s.workers w).appliedUpdatedAt = s.db.marker)
    (hclock : ∀ row ∈ s.db.history, row.acceptedAt < s.clock) (hp : reader.parse raw = some index) :
    (Task.committed w u ⟨some s.clock, index, false⟩ (s.accept raw u).2).Sound reader
      (s.committed w raw u) := by
  have hordered : Ordered reader (s.db.history ++ [⟨s.db.accepts, s.clock, raw⟩]) :=
    h.ordered.concat hclock h.ids (by rw [hp]; rfl)
  refine ⟨?_, mem_cons_self, fun _ => ?_⟩
  · rw [workers_committed, if_pos rfl]
  · have hheld : ((s.committed w raw u).workers w).generations =
        residentGenerations reader s.db.history := by
      rw [workers_committed, if_pos rfl]
      exact (h.workers w).current hcurrent
    rw [hheld, history_committed]
    refine add_residentGenerations hordered ?_
    rw [generationOf, hp]
    rfl

end

/-! ### The acts -/

theorem RefreshInv.change (h : RefreshInv reader n s γ)
    (hg : γ t = g) (hkey : g'.key = g.key ∨ g'.key = none)
    (hworker : WorkerSound reader s (f (s.workers w))) (hself : g'.Sound reader (s.change w f))
    (htick : g.key = some (.inl w) ∨ (f (s.workers w)).lastTick = (s.workers w).lastTick)
    (haccept : ∀ accept ∈ (s.workers w).accepting, g.key = some (.inr accept.1) ∨
      (f (s.workers w)).accepting = (s.workers w).accepting ∧
        ((f (s.workers w)).generations = (s.workers w).generations ∨ accept.2 = true ∧
          (s.db.marker = some accept.1 →
            (f (s.workers w)).generations = residentGenerations reader s.db.history))) :
    RefreshInv reader n (s.change w f) (Function.update γ t g') := by
  have hapart : ∀ u, u ≠ t → g.key ≠ none → g.key ≠ (γ u).key := by
    intro u hu hk
    rw [← hg] at hk ⊢
    exact h.apart t u (Ne.symm hu) hk
  refine h.update ?_ (fun u hu => (h.sound u).change ?_ ?_) hself ?_
  · refine ⟨h.shared.ordered, h.shared.ids, h.shared.empty, h.shared.active, fun v => ?_⟩
    rw [workers_change]
    split_ifs
    · exact ⟨hworker.applied, hworker.ticked, hworker.accepting, hworker.current,
        hworker.converged⟩
    · have hv := h.shared.workers v
      exact ⟨hv.applied, hv.ticked, hv.accepting, hv.current, hv.converged⟩
  · intro hk
    rcases htick with ht | ht
    · exact absurd (ht.trans hk.symm) (hapart u hu (by rw [ht]; simp))
    · exact ht
  · intro accept ha hk
    rcases haccept accept ha with hown | hkept
    · exact absurd (hown.trans hk.symm) (hapart u hu (by rw [hown]; simp))
    · exact hkept
  · intro u hu hk
    rcases hkey with hkey | hkey
    · rw [hkey] at hk ⊢
      exact hapart u hu hk
    · exact absurd hkey hk

section
variable [DecidableEq Digest]

/-- Safety of a program of the machine. -/
abbrev Kept {α : Type} (reader : Reader Snapshot Digest Index) (t : ℕ)
    (Q : α → Task Snapshot Index → Prop)
    (p : Prog Label (PriceState Snapshot Index) α) (g : Task Snapshot Index) : Prop :=
  Safe (RefreshInv reader) Condition t Q p g

/-- What a thread knows once its transaction has ended. -/
def AfterCommit (w : ℕ) (u : Instant) (result : Committed Index) (g : Task Snapshot Index) : Prop :=
  match result with
  | .accepted generation pruned => g = .committed w u generation pruned
  | _ => g = .idle

theorem commitAccept_kept (w : ℕ) (digest : Option Digest) (u : Instant) :
    Kept reader t (AfterCommit w u) (commitAccept reader w digest u) .idle := by
  intro n s γ b s' _ h hg hC hf
  beta_reduce at hf
  split at hf
  · cases hf
    exact ⟨.idle, h.know hg trivial rfl, rfl⟩
  · rename_i raw hpending
    split at hf
    · cases hf
      exact ⟨.idle, h.know hg trivial rfl, rfl⟩
    · split at hf
      · cases hf
        exact ⟨.idle, h.know hg trivial rfl, rfl⟩
      · rename_i index hparse
        split at hf
        · cases hf
        · rename_i hu
          cases hf
          obtain ⟨hidle, hcurrent, hclock⟩ := hC (by rw [hpending]; rfl)
          refine ⟨.committed w u ⟨some s.clock, index, false⟩ (s.accept raw u).2, ?_, rfl⟩
          have hshared := h.shared.committed (w := w) hu hclock hparse
          refine h.update hshared (fun v _ => (h.sound v).committed h.shared hu hidle) ?_ ?_
          · exact committed_sound h.shared hcurrent hclock hparse
          · intro v _ _ he
            exact hu ((h.sound v).own_written he.symm)

end

theorem addAccepted_kept (w : ℕ) (u : Instant) (generation : PriceGeneration Index)
    (pruned : Bool) :
    Kept reader t (fun _ g' => g' = .added w u) (addAccepted w u generation pruned)
      (.committed w u generation pruned) := by
  intro n s γ b s' _ h hg _ hf
  cases hf
  have hself := h.sound t
  rw [hg] at hself
  obtain ⟨haccepting, hwritten, hgenerations⟩ := hself
  have hw := h.shared.workers w
  have hstale := (hw.accepting _ haccepting).2 rfl
  refine ⟨.added w u, h.change hg (.inl rfl) ?_ ?_ (.inr rfl) ?_, rfl⟩
  · refine ⟨hw.applied, hw.ticked, ?_, fun he => absurd he hstale, fun he => ?_⟩
    · intro accept ha
      cases ha
      exact ⟨hwritten, fun hadded => by cases hadded⟩
    · exact absurd ((hw.converged he).2 _ haccepting) (by simp)
  · refine ⟨?_, hwritten, ?_⟩
    · simp
    · simpa using hgenerations
  · intro accept ha
    rw [haccepting] at ha
    cases ha
    exact .inl rfl

theorem readMarker_kept (w : ℕ) (u : Instant) :
    Kept reader t (fun marker g' => g' = .added w u ∧ marker = some u) (readMarker u)
      (.added w u) :=
  Safe.read fun _ _ _ _ _ _ hC => ⟨rfl, hC⟩

theorem setMarker_kept (w : ℕ) (u : Instant) :
    Kept reader t (fun _ _ => True) (setMarker w (some u)) (.added w u) := by
  intro n s γ b s' _ h hg _ hf
  cases hf
  have hself := h.sound t
  rw [hg] at hself
  obtain ⟨haccepting, hwritten, hgenerations⟩ := hself
  have hw := h.shared.workers w
  refine ⟨.idle, h.change hg (.inr rfl) ?_ trivial (.inr rfl) ?_, trivial⟩
  · refine ⟨?_, hw.ticked, fun accept ha => (by cases ha), fun he => hgenerations he.symm,
      fun he => ⟨(hw.converged he).1, fun accept ha => (by cases ha)⟩⟩
    intro x hx
    cases hx
    exact hwritten
  · intro accept ha
    rw [haccepting] at ha
    cases ha
    exact .inl rfl

section
variable [DecidableEq Digest]

theorem confirmPriceRefresh_kept (w : ℕ) (digest : Option Digest) (u : Instant) :
    Kept reader t (fun _ _ => True) (confirmPriceRefresh reader w digest u) .idle := by
  refine Safe.bind (commitAccept_kept w digest u) fun result g₁ h₁ => ?_
  cases result with
  | accepted generation pruned =>
    obtain rfl := h₁
    refine Safe.bind (addAccepted_kept w u generation pruned) fun _ g₂ h₂ => ?_
    obtain rfl := h₂
    refine Safe.bind (readMarker_kept w u) fun marker g₃ h₃ => ?_
    obtain ⟨rfl, rfl⟩ := h₃
    exact Safe.bind (setMarker_kept w u) fun _ _ _ => trivial
  | absent => trivial
  | changed => trivial
  | invalid => trivial

end

theorem readActive_kept (w : ℕ) (tick : Option (Option Instant)) (hkey : g.key = some (.inl w))
    (hsaw : ∀ s : PriceState Snapshot Index, g.Sound reader s →
      ∀ saw, tick = some saw → ∀ u, saw = some u → u ∈ s.written) :
    Kept reader t (fun row g' => match row with
      | none => g' = g
      | some row => g' = .active w row tick) readActive g := by
  intro n s γ b s' _ h hg _ hf
  obtain ⟨rfl, rfl⟩ : s.db.active = b ∧ s = s' := by simpa using hf
  have hself := h.sound t
  rw [hg] at hself
  cases hactive : s.db.active with
  | none => exact ⟨g, h.know hg hself rfl, rfl⟩
  | some row =>
    have hmarker : s.db.marker = some row.updatedAt := by
      rw [Database.marker, hactive]
      rfl
    refine ⟨.active w row tick, h.know hg ?_ hkey.symm, rfl⟩
    exact
      { started := hself.worker_started hkey
        written := (h.shared.active row hactive).1
        same := fun _ => hactive
        last := fun _ => hmarker
        tick := fun saw he => ⟨hsaw s hself saw he, fun _ => hmarker⟩ }

theorem readHistory_kept (w : ℕ) (row : ActiveRow Snapshot) (tick : Option (Option Instant)) :
    Kept reader t (fun history g' => g' = .rows w row tick history) readHistory
      (.active w row tick) := by
  intro n s γ b s' _ h hg _ hf
  cases hf
  have hself := h.sound t
  rw [hg] at hself
  refine ⟨.rows w row tick (newest s.db.history (maxResidentGenerations + 1)), h.know hg ?_ rfl, rfl⟩
  exact And.intro hself fun _ => rfl

section
variable [DecidableEq Snapshot]

theorem apply_kept (w : ℕ) (row : ActiveRow Snapshot) (tick : Option (Option Instant))
    (history : List (HistoryRow Snapshot)) : Kept reader t (fun _ g' => g' = .worker w)
      (.one (.apply w row.updatedAt) fun _ s =>
        some ((), s.change w fun worker => worker.apply reader row history tick))
      (.rows w row tick history) := by
  intro n s γ b s' _ h hg hC hf
  cases hf
  have hself := h.sound t
  rw [hg] at hself
  obtain ⟨hrecent, hrows⟩ := hself
  have hw := h.shared.workers w
  -- the rows are what a rebuild of this moment reads, where no accept has come after
  have hrebuilt : s.db.marker = some row.updatedAt →
      ((s.workers w).apply reader row history tick).generations =
        residentGenerations reader s.db.history := by
    intro hm
    obtain ⟨last, hlast, hsnapshot⟩ := (h.shared.active row (hrecent.same hm)).2
    rw [Worker.apply, hrows hm, rebuild_eq h.shared.ordered hlast hsnapshot, Option.getD_some]
  have hadded : ∀ accept ∈ (s.workers w).accepting, accept.2 = true := fun accept ha =>
    (hC accept ha).1
  have hticked : ((s.workers w).apply reader row history tick).lastTick = some s.db.marker →
      s.db.marker = some row.updatedAt := by
    intro he
    cases tick with
    | none => exact hrecent.last he
    | some saw => exact (hrecent.tick saw rfl).2 (Option.some.inj he).symm
  refine ⟨.worker w, h.change hg (.inl rfl) ?_ hrecent.started (.inl rfl) ?_, rfl⟩
  · refine ⟨?_, ?_, ?_, fun he => hrebuilt he.symm, fun he => ⟨hrebuilt (hticked he), hadded⟩⟩
    · intro x hx
      cases hx
      exact hrecent.written
    · intro x hx
      cases tick with
      | none => exact hw.ticked x hx
      | some saw => exact (hrecent.tick saw rfl).1 x (Option.some.inj hx)
    · intro accept ha
      refine ⟨(hw.accepting accept ha).1, fun hnot => ?_⟩
      rw [hadded accept ha] at hnot
      cases hnot
  · intro accept ha
    obtain ⟨htrue, hsame⟩ := hC accept ha
    refine .inr ⟨rfl, .inr ⟨htrue, fun hm => hrebuilt ?_⟩⟩
    rw [hsame hm]
    exact hm

theorem applyPersistedSnapshots_kept (w : ℕ) (row : ActiveRow Snapshot)
    (tick : Option (Option Instant)) :
    Kept reader t (fun _ g' => g' = .worker w) (applyPersistedSnapshots reader w row tick)
      (.active w row tick) := by
  refine Safe.bind (readHistory_kept w row tick) fun history g₁ h₁ => ?_
  obtain rfl := h₁
  exact apply_kept w row tick history

theorem loadPersistedPriceSnapshot_kept (w : ℕ) :
    Kept reader t (fun _ g' => g' = .worker w) (loadPersistedPriceSnapshot reader w)
      (.worker w) := by
  refine Safe.bind (readActive_kept w none rfl fun _ _ _ he => by cases he) fun row g₁ h₁ => ?_
  cases row with
  | none => exact h₁
  | some row =>
    obtain rfl := h₁
    exact applyPersistedSnapshots_kept w row none

end

theorem upToDate_kept (w : ℕ) (saw : Option Instant) :
    Kept reader t (fun done g' => g' = if done then .worker w else .began w saw)
      (upToDate w saw) (.began w saw) := by
  intro n s γ b s' _ h hg _ hf
  have hself := h.sound t
  rw [hg] at hself
  have hw := h.shared.workers w
  beta_reduce at hf
  split at hf
  · rename_i hnothing
    cases hf
    refine ⟨.worker w, h.change hg (.inl rfl) ?_ hself.1 (.inl rfl) ?_, rfl⟩
    · have happlied : saw = s.db.marker → (s.workers w).appliedUpdatedAt = s.db.marker := by
        rintro rfl
        rcases hnothing with hnone | hsame
        · have hactive : s.db.active = none := Option.map_eq_none_iff.mp hnone
          rw [hnone, Option.eq_none_iff_forall_not_mem]
          intro x hx
          have hx := hw.applied x hx
          rw [(h.shared.empty hactive).2] at hx
          cases hx
        · exact hsame.symm
      refine ⟨hw.applied, ?_, hw.accepting, hw.current, fun he => ?_⟩
      · intro x hx
        exact hself.2 x (Option.some.inj hx)
      · have hcurrent := happlied (Option.some.inj he)
        refine ⟨hw.current hcurrent, fun accept ha => ?_⟩
        cases hadded : accept.2 with
        | true => rfl
        | false => exact absurd hcurrent ((hw.accepting accept ha).2 hadded)
    · exact fun accept _ => .inr ⟨rfl, .inl rfl⟩
  · cases hf
    exact ⟨.began w saw, h.know hg hself rfl, rfl⟩

theorem readTick_kept (w : ℕ) (hkey : g.key = some (.inl w)) :
    Kept reader t (fun saw g' => g' = .began w saw)
      (.read .read fun _ (s : PriceState Snapshot Index) => s.db.marker) g := by
  intro n s γ b s' _ h hg _ hf
  obtain ⟨rfl, rfl⟩ : s.db.marker = b ∧ s = s' := by simpa using hf
  have hself := h.sound t
  rw [hg] at hself
  refine ⟨.began w s.db.marker, h.know hg ⟨hself.worker_started hkey, ?_⟩ hkey.symm, rfl⟩
  intro u hu
  obtain ⟨row, hrow, rfl⟩ := Option.map_eq_some_iff.mp hu
  exact (h.shared.active row hrow).1

section
variable [DecidableEq Snapshot]

theorem refreshPriceSnapshot_kept (w : ℕ) (hkey : g.key = some (.inl w)) :
    Kept reader t (fun _ g' => g'.key = some (.inl w)) (refreshPriceSnapshot reader w) g := by
  refine Safe.bind (readTick_kept w hkey) fun saw g₁ h₁ => ?_
  obtain rfl := h₁
  refine Safe.bind (upToDate_kept w saw) fun done g₂ h₂ => ?_
  cases done with
  | true =>
    obtain rfl := h₂
    exact rfl
  | false =>
    obtain rfl := h₂
    refine Safe.bind (readActive_kept w (some saw) rfl ?_) fun row g₃ h₃ => ?_
    · intro s hself saw' he
      cases he
      exact hself.2
    · cases row with
      | none =>
        obtain rfl := h₃
        exact rfl
      | some row =>
        obtain rfl := h₃
        refine (applyPersistedSnapshots_kept w row (some saw)).mono fun _ g' h' => ?_
        rw [h']
        rfl

theorem refreshes_kept (w ticks : ℕ) (hkey : g.key = some (.inl w)) :
    Kept reader t (fun _ _ => True) (refreshes reader w ticks) g := by
  induction ticks generalizing g with
  | zero => exact trivial
  | succ ticks ih => exact Safe.bind (refreshPriceSnapshot_kept w hkey) fun _ _ h => ih h

end

/-- Two stores with the same rows and the same workers, of which no fewer have started. -/
structure SameRows (s s' : PriceState Snapshot Index) : Prop where
  active : s'.db.active = s.db.active
  history : s'.db.history = s.db.history
  accepts : s'.db.accepts = s.db.accepts
  workers : s'.workers = s.workers
  written : s'.written = s.written
  started : s.started ⊆ s'.started

theorem SameRows.marker (h : SameRows s s') : s'.db.marker = s.db.marker := by
  rw [Database.marker, Database.marker, h.active]

theorem Recent.sameRows {row : ActiveRow Snapshot} {tick : Option (Option Instant)}
    (hr : Recent s w row tick) (h : SameRows s s') : Recent s' w row tick where
  started := h.started hr.started
  written := h.written ▸ hr.written
  same := by
    rw [h.marker, h.active]
    exact hr.same
  last := by
    rw [h.marker, h.workers]
    exact hr.last
  tick := by
    rw [h.marker, h.written]
    exact hr.tick

theorem Task.Sound.sameRows (hg : g.Sound reader s) (h : SameRows s s') : g.Sound reader s' := by
  cases g with
  | idle => trivial
  | committed v own generation pruned =>
    simp only [Task.Sound, h.workers, h.written, h.marker, h.history]
    exact hg
  | added v own =>
    simp only [Task.Sound, h.workers, h.written, h.marker, h.history]
    exact hg
  | worker v => exact h.started hg
  | began v saw => exact ⟨h.started hg.1, h.written ▸ hg.2⟩
  | active v row tick => exact Recent.sameRows hg h
  | rows v row tick history =>
    refine ⟨hg.1.sameRows h, ?_⟩
    rw [h.marker, h.history]
    exact hg.2

theorem RefreshShared.sameRows (hs : RefreshShared reader s) (h : SameRows s s') :
    RefreshShared reader s' := by
  refine ⟨?_, ?_, ?_, ?_, fun w => ?_⟩
  · exact h.history ▸ hs.ordered
  · rw [h.history, h.accepts]
    exact hs.ids
  · rw [h.active, h.history, h.written]
    exact hs.empty
  · rw [h.active, h.history, h.written]
    exact hs.active
  · have hw := hs.workers w
    rw [h.workers]
    refine ⟨?_, ?_, ?_, ?_, ?_⟩
    · exact h.written ▸ hw.applied
    · exact h.written ▸ hw.ticked
    · rw [h.written, h.marker]
      exact hw.accepting
    · rw [h.marker, h.history]
      exact hw.current
    · rw [h.marker, h.history]
      exact hw.converged

theorem startWorker_kept (w : ℕ) :
    Kept reader t (fun _ g' => g' = .worker w) (startWorker w) .idle := by
  intro n s γ b s' _ h hg _ hf
  beta_reduce at hf
  split at hf
  · cases hf
  · rename_i hw
    cases hf
    have hsame : SameRows s { s with started := w :: s.started } :=
      ⟨rfl, rfl, rfl, rfl, rfl, subset_cons_self w s.started⟩
    refine ⟨.worker w, h.update (h.shared.sameRows hsame) (fun u _ => (h.sound u).sameRows hsame)
      mem_cons_self ?_, rfl⟩
    exact fun u _ _ he => hw ((h.sound u).worker_started he.symm)

/-! ### Every run -/

theorem refreshInv_start : RefreshInv reader 0 {} fun _ => .idle := by
  have hworker : WorkerSound reader {} ({} : Worker Index) :=
    ⟨fun _ h => (by cases h), fun _ h => (by cases h), fun _ h => (by cases h), fun _ => rfl,
      fun h => (by cases h)⟩
  refine ⟨⟨⟨.nil, .nil, ?_⟩, ?_, fun _ => ⟨rfl, rfl⟩, ?_, fun _ => hworker⟩, fun _ => trivial,
    fun _ _ _ hk => absurd rfl hk⟩
  · exact fun row hr => absurd hr not_mem_nil
  · exact fun row hr => absurd hr not_mem_nil
  · intro row hr
    cases hr

section
variable [DecidableEq Snapshot] [DecidableEq Digest]

theorem refreshSystem_kept (op : RefreshOp Digest) :
    Kept reader t (fun _ _ => True) ((refreshSystem reader).program op) .idle := by
  cases op with
  | confirm w digest updatedAt => exact confirmPriceRefresh_kept w digest updatedAt
  | worker w ticks =>
    refine Safe.bind (startWorker_kept w) fun _ g₁ h₁ => ?_
    obtain rfl := h₁
    refine Safe.bind (loadPersistedPriceSnapshot_kept w) fun _ g₂ h₂ => ?_
    obtain rfl := h₂
    exact refreshes_kept w ticks rfl

theorem RefreshInv.env (h : RefreshInv reader n s γ) {e : Elsewhere Snapshot}
    (he : (refreshSystem reader).env e s = some s') : RefreshInv reader n s' γ := by
  have hsame : SameRows s s' := by
    cases e with
    | tick seconds =>
      cases he
      exact ⟨rfl, rfl, rfl, rfl, rfl, List.Subset.refl _⟩
    | pend snapshot =>
      cases he
      exact ⟨rfl, rfl, rfl, rfl, rfl, List.Subset.refl _⟩
  exact ⟨h.shared.sameRows hsame, fun t => (h.sound t).sameRows hsame, h.apart⟩

theorem refresh_inv {m : Machine (RefreshOp Digest) Label (PriceState Snapshot Index) Answer}
    (h : Reach (refreshSystem reader) Condition m) :
    ∃ γ, RefreshInv reader m.threads.length m.store γ := by
  have hsafe := h.safe (I := RefreshInv reader) (Q := fun _ _ _ => True) .idle (fun s hs => ?_)
    (fun n s γ hinv _ => ⟨hinv.shared, hinv.sound, hinv.apart⟩)
    (fun n s γ e s' hinv he => hinv.env he) fun op t => refreshSystem_kept op
  · obtain ⟨γ, hinv, -⟩ := hsafe
    exact ⟨γ, hinv⟩
  · cases hs
    exact refreshInv_start

/-- **Every worker comes to the accepted prices.**  In every run whose steps all meet the condition,
a worker whose last completed tick began after the last accept answers as one started from the
database. -/
theorem refresh_converges {m : Machine (RefreshOp Digest) Label (PriceState Snapshot Index) Answer}
    (h : Reach (refreshSystem reader) Condition m) (w : ℕ)
    (hw : (m.store.workers w).lastTick = some m.store.db.marker)
    (bundled : PriceGeneration Index) (asOf : Instant) :
    selectGeneration (activeTimeline bundled (m.store.workers w).generations) asOf =
      selectGeneration (activeTimeline bundled (loadedGenerations reader m.store.db)) asOf := by
  obtain ⟨γ, hinv⟩ := refresh_inv h
  have hheld := ((hinv.shared.workers w).converged hw).1
  have hloaded : loadedGenerations reader m.store.db =
      residentGenerations reader m.store.db.history := by
    refine loadedGenerations_eq hinv.shared.ordered ?_
    cases hactive : m.store.db.active with
    | none => exact (hinv.shared.empty hactive).1
    | some row => exact (hinv.shared.active row hactive).2
  rw [hheld, hloaded]

end

end

/-! ### Two workers accept -/

instance instDecidableCondition {Snapshot Index : Type} (l : Label)
    (s : PriceState Snapshot Index) : Decidable (Condition l s) :=
  match l with
  | .commit _ | .readMarker _ | .apply _ _ => by unfold Condition; infer_instance
  | .add | .setMarker | .start | .read | .compare => .isTrue trivial

def plainReader : Reader ℕ ℕ ℕ := ⟨some, id⟩

def packaged : PriceGeneration ℕ := ⟨some 0, 0, true⟩

/-- Two workers start; the first accepts and then the second, which has a tick to go; `before` and
`after` are its steps before and after its accept. -/
def twoAccepts (ticks before after : ℕ) : List (Choice (RefreshOp ℕ) (Elsewhere ℕ)) :=
  List.flatten [[.spawn (.worker 0 0), .spawn (.worker 1 ticks)],
    List.replicate 2 (.run 0), List.replicate 2 (.run 1),
    [.env (.tick 10), .env (.pend 7), .spawn (.confirm 0 none 10)], List.replicate 4 (.run 2),
    List.replicate before (.run 1),
    [.env (.tick 10), .env (.pend 8), .spawn (.confirm 1 none 20)], List.replicate 4 (.run 3),
    List.replicate after (.run 1)]

/-- Whether the second worker's last tick saw the last accept, and what it and a fresh worker answer
of an instant between the accepts. -/
def answersBetween (m : Machine (RefreshOp ℕ) Label (PriceState ℕ ℕ) Answer) :
    Bool × Option ℕ × Option ℕ :=
  (decide ((m.store.workers 1).lastTick = some m.store.db.marker),
    (selectGeneration (activeTimeline packaged (m.store.workers 1).generations) 15).map (·.index),
    (selectGeneration (activeTimeline packaged (loadedGenerations plainReader m.store.db)) 15).map
      (·.index))

theorem twoAccepts_apart : ((Machine.mk {} []).exec (refreshSystem plainReader) (fun _ _ => True)
      (twoAccepts 1 0 2)).map answersBetween = some (true, some 0, some 7) := by
  rfl

/-- **A worker that accepts what it has not seen keeps the packaged prices between.** -/
theorem accepting_worker_stays_apart :
    ¬ ∀ m, Reach (refreshSystem plainReader) (fun _ _ => True) m →
      ∀ w, (m.store.workers w).lastTick = some m.store.db.marker → ∀ bundled asOf,
        selectGeneration (activeTimeline bundled (m.store.workers w).generations) asOf =
          selectGeneration (activeTimeline bundled (loadedGenerations plainReader m.store.db))
            asOf := by
  intro hall
  obtain ⟨m, hm, hanswers⟩ := Option.map_eq_some_iff.mp twoAccepts_apart
  obtain ⟨htick, hanswers⟩ := Prod.mk.inj hanswers
  obtain ⟨hheld, hloaded⟩ := Prod.mk.inj hanswers
  have hsame := hall m (.of_exec (.start rfl) hm) 1 (of_decide_eq_true htick) packaged 15
  rw [hsame, hloaded] at hheld
  cases hheld

theorem twoAccepts_together : ((Machine.mk {} []).exec (refreshSystem plainReader) Condition
      (twoAccepts 2 5 2)).map answersBetween = some (true, some 7, some 7) := by
  rfl

theorem refresh_converges_twoAccepts : ∃ m : Machine (RefreshOp ℕ) Label (PriceState ℕ ℕ) Answer,
      answersBetween m = (true, some 7, some 7) ∧ ∀ bundled asOf,
        selectGeneration (activeTimeline bundled (m.store.workers 1).generations) asOf =
          selectGeneration (activeTimeline bundled (loadedGenerations plainReader m.store.db))
            asOf := by
  obtain ⟨m, hm, hanswers⟩ := Option.map_eq_some_iff.mp twoAccepts_together
  have htick := of_decide_eq_true (Prod.mk.inj hanswers).1
  exact ⟨m, hanswers, refresh_converges (.of_exec (.start rfl) hm) 1 htick⟩

end Otari.Refresh

import Otari.Reservations.Moves
import Otari.Reservations.RefusalRestores

/-!
# Reservations — MoveExact — a move holds what it says, or nothing changes

After a move the reservation holds the move's amount on each target ceiling and nothing on any
other, its row says so, and so does its handle (`Moved`).  A move that a ceiling refuses leaves
every hold and every row (`Kept`).  `move_exact` is the two together, for a handle that agrees with
its row and whose holds are in the counters (`Consistent`), whatever the database answers.

A row that was reclaimed in the meantime is by design a third case: the holds and rows stay, and the
handle names the new ceilings, so that the spend settles on them (`reclaimed_retargets`).
-/

namespace Otari.Reservations
open Transactions Raising Raising.Program List

/-! ### Whole micro-dollars -/

/-- A whole number of micro-dollars, which is what a column keeps of an amount. -/
def Whole (amount : ℚ) : Prop := ∃ micros, amount = usd micros

theorem Whole.bindUsd_sub {a b : ℚ} (ha : Whole a) (hb : Whole b) :
    bindUsd (a - b) = bindUsd a - bindUsd b := by
  obtain ⟨m, rfl⟩ := ha
  obtain ⟨n, rfl⟩ := hb
  have hsub : usd m - usd n = usd (m - n) := by
    rw [usd, usd, usd, Int.cast_sub, sub_div]
  rw [hsub, bindUsd_usd, bindUsd_usd, bindUsd_usd]

theorem Whole.max {a b : ℚ} (ha : Whole a) (hb : Whole b) : Whole (max a b) := by
  rcases max_choice a b with h | h
  · rwa [h]
  · rwa [h]

/-! ### What a reservation holds -/

def ReservationHandle.heldOn (h : ReservationHandle) (id : ℕ) : Held :=
  if id ∈ h.scopedBudgetIds then h.ceilingHeld.bind else ⟨0, 0, 0⟩

/-- What a counter holds once a hold on it changed. -/
def Held.change (held less more : Held) : Held :=
  ⟨held.amount - less.amount + more.amount, held.tokens - less.tokens + more.tokens,
    held.requests - less.requests + more.requests⟩

def Lost (h : ReservationHandle) (s : Store) : Prop :=
  ∃ id ∈ h.reservationId, s.isActive id = false

/-- The handle agrees with its active row, and its holds are in the counters, unless they were given
back with the row. -/
structure Consistent (h : ReservationHandle) (s : Store) : Prop where
  budgets : h.scopedBudgetIds.Nodup
  ceilings : (h.scopeCeilings.map ApplicableCeiling.id).Nodup
  estimate : Whole h.estimate ∧ 0 ≤ h.estimate
  scopedEstimate : Whole h.scopedEstimate
  nonneg : h.ceilingHeld.NonNeg
  covered : ¬ Lost h s → ∀ id c, s.ceilings id = some c →
    (h.heldOn id).amount ≤ c.usage.reserved ∧ (h.heldOn id).tokens ≤ c.usage.reservedTokens ∧
      (h.heldOn id).requests ≤ c.usage.reservedRequests
  key : (s.reservations.map Reservation.id).Nodup
  lines : ∀ id ∈ h.reservationId, ∀ r, s.reservation? id = some r → r.status = .active →
    r.lines.Perm (h.scopedBudgetIds.map fun id => (id, h.ceilingHeld.bind))

/-- No hold and no row is changed. -/
structure Kept (before after : Store) : Prop where
  holds : SameHolds before after
  rows : after.reservations = before.reservations

/-- **The holds of a move.**  Each ceiling has the hold of the handle before replaced by that of the
handle after, and the row says the same. -/
structure Moved (h : ReservationHandle) (move : ReservationMove) (before after : Store) : Prop where
  users : ∀ id, (before.users id).map (·.usage.held) = (after.users id).map (·.usage.held)
  counters : ∀ id, (after.ceilings id).map (·.usage.held) =
    (before.ceilings id).map fun c =>
      c.usage.held.change (h.heldOn id) ((retarget h move).heldOn id)
  target : ∀ c ∈ move.target, (retarget h move).heldOn c.id = move.held.bind
  dropped : ∀ id, id ∉ move.target.map ApplicableCeiling.id →
    (retarget h move).heldOn id = ⟨0, 0, 0⟩
  row : ∀ id ∈ (retarget h move).reservationId, ∃ r, after.reservation? id = some r ∧
    r.status = .active ∧ r.lines.Perm (move.target.map fun c => (c.id, move.held.bind))
  others : ∀ id, id ∉ (retarget h move).reservationId →
    after.reservation? id = before.reservation? id

/-! ### What a plan is -/

/-- What holds of every plan. -/
structure Planned (h : ReservationHandle) (newId : ℕ) (move : ReservationMove) : Prop where
  target : (move.target.map ApplicableCeiling.id).Nodup
  added : move.added = move.target.filter fun c => c.id ∉ h.scopedBudgetIds
  shared : move.shared =
    h.scopedBudgets.filter fun b => b.id ∈ move.target.map ApplicableCeiling.id
  dropped : move.dropped =
    h.scopedBudgets.filter fun b => b.id ∉ move.target.map ApplicableCeiling.id
  held : move.held.NonNeg
  whole : Whole move.held.amount
  grows : h.scopedBudgets ≠ [] → h.scopedEstimate ≤ move.held.amount ∧
    move.held.tokens = h.scopedTokenEstimate ∧ move.held.requests = h.scopedRequestEstimate
  gated : move.gatedAmount.getD 0 = move.held.amount
  row : move.reservationId = h.reservationId.getD newId
  writes : move.writesRow = (h.reservationId.isNone && move.target ≠ [])
  changes : move.target ≠ [] ∨ h.scopedBudgets ≠ []

variable {db : Db} {s : Session Store} {store c : Store} {h : ReservationHandle}
  {move : ReservationMove} {newId : ℕ}

theorem whole_quote (quote : Option Quote) {amount : ℚ} (hamount : Whole amount) :
    Whole (quote.elim amount fun q => usd q.micros) := by
  cases quote with
  | none => exact hamount
  | some q => exact ⟨q.micros, rfl⟩

theorem quote_nonneg (quote : Option Quote) {amount : ℚ} (hamount : 0 ≤ amount) :
    0 ≤ quote.elim amount fun q => usd q.micros := by
  cases quote with
  | none => exact hamount
  | some q =>
    dsimp only [Option.elim]
    rw [usd]
    positivity

theorem plannedHold_nonNeg (hok : Consistent h store) (quote : Option Quote) :
    (plannedHold h quote).NonNeg ∧ Whole (plannedHold h quote).amount := by
  rw [plannedHold]
  split_ifs
  · exact ⟨⟨hok.nonneg.1.trans (le_max_right _ _), hok.nonneg.2⟩,
      (whole_quote quote hok.scopedEstimate).max hok.scopedEstimate⟩
  · refine ⟨⟨quote_nonneg quote hok.estimate.2, ?_, zero_le_one⟩,
      whole_quote quote hok.estimate.1⟩
    exact le_min (le_max_right _ _) (by norm_num [maxCountLimit])

theorem planned (hok : Consistent h store) {provider : Option String} {quote : Option Quote}
    (hplan : plan h provider quote newId = some move) : Planned h newId move := by
  have hheld := plannedHold_nonNeg hok quote
  have hnodup :
      ((getProviderCeilings h.scopeCeilings provider).map ApplicableCeiling.id).Nodup := by
    have hperm := (perm_insertionSort (fun a b : ApplicableCeiling => a.key ≤ b.key)
      (h.scopeCeilings.filter
        fun c => c.providerKeyId.isNone || c.providerKeyId = provider)).map ApplicableCeiling.id
    exact hperm.nodup_iff.mpr (hok.ceilings.sublist (filter_sublist.map _))
  have hgrows : h.scopedBudgets ≠ [] → h.scopedEstimate ≤ (plannedHold h quote).amount ∧
      (plannedHold h quote).tokens = h.scopedTokenEstimate ∧
      (plannedHold h quote).requests = h.scopedRequestEstimate := by
    intro hscoped
    rw [plannedHold, if_pos hscoped]
    exact ⟨le_max_right _ _, rfl, rfl⟩
  unfold plan at hplan
  dsimp only at hplan
  split_ifs at hplan with h₁ h₂ h₃ h₄ hfree
  · cases hplan
    rw [Bool.and_eq_true, decide_eq_true_eq] at hfree
    exact ⟨hnodup, rfl, rfl, rfl, hheld.1, hheld.2, hgrows, hfree.2.symm, rfl, rfl,
      not_and_or.mp h₂⟩
  · cases hplan
    exact ⟨hnodup, rfl, rfl, rfl, hheld.1, hheld.2, hgrows, rfl, rfl, rfl, not_and_or.mp h₂⟩

/-! ### Holds on many ceilings -/

theorem Store.updateCeilings_ceilings (s : Store) (ids : List ℕ) (f : ScopedBudget → ScopedBudget)
    (id : ℕ) : (s.updateCeilings ids f).ceilings id =
      if id ∈ ids then (s.ceilings id).map f else s.ceilings id := rfl

/-- What is left once each hold is taken, or given back, in turn. -/
def Store.eachCeiling (s : Store) (f : GatedHold → ScopedBudget → ScopedBudget)
    (holds : List GatedHold) : Store :=
  holds.foldl (fun s hold => s.updateCeilings [hold.budget.id] (f hold)) s

section
variable (f : GatedHold → ScopedBudget → ScopedBudget)

theorem Store.eachCeiling_append (s : Store) (holds : List GatedHold) (hold : GatedHold) :
    s.eachCeiling f (holds ++ [hold]) =
      (s.eachCeiling f holds).updateCeilings [hold.budget.id] (f hold) := by
  rw [eachCeiling, foldl_append]
  rfl

theorem Store.eachCeiling_eq (s : Store) (holds : List GatedHold) :
    s.eachCeiling f holds = { s with ceilings := (s.eachCeiling f holds).ceilings } := by
  induction holds generalizing s with
  | nil => rfl
  | cons hold holds ih =>
    have hrest := ih (s.updateCeilings [hold.budget.id] (f hold))
    rw [eachCeiling, foldl_cons]
    exact hrest

theorem Store.eachCeiling_of_not_mem (s : Store) {holds : List GatedHold} {id : ℕ}
    (hid : ∀ hold ∈ holds, hold.budget.id ≠ id) :
    (s.eachCeiling f holds).ceilings id = s.ceilings id := by
  induction holds generalizing s with
  | nil => rfl
  | cons hold holds ih =>
    have hrest := ih (s.updateCeilings [hold.budget.id] (f hold))
      fun g hg => hid g (mem_cons_of_mem hold hg)
    rw [eachCeiling, foldl_cons]
    refine hrest.trans ?_
    rw [updateCeilings_ceilings, if_neg]
    simpa using (hid hold mem_cons_self).symm

theorem Store.eachCeiling_of_mem (s : Store) {holds : List GatedHold} {hold : GatedHold}
    (hnodup : (holds.map (·.budget.id)).Nodup) (hmem : hold ∈ holds) :
    (s.eachCeiling f holds).ceilings hold.budget.id = (s.ceilings hold.budget.id).map (f hold) := by
  induction holds generalizing s with
  | nil => cases hmem
  | cons g holds ih =>
    rw [map_cons, nodup_cons] at hnodup
    rw [eachCeiling, foldl_cons]
    rcases mem_cons.mp hmem with rfl | hmem
    · refine (eachCeiling_of_not_mem f _ fun g hg heq => hnodup.1 ?_).trans ?_
      · rw [← heq]
        exact mem_map_of_mem hg
      · rw [updateCeilings_ceilings, if_pos mem_cons_self]
    · refine (ih _ hnodup.2 hmem).trans ?_
      rw [updateCeilings_ceilings, if_neg]
      intro heq
      rw [mem_singleton] at heq
      exact hnodup.1 (heq ▸ mem_map_of_mem hmem)

end

def Store.takeEach (s : Store) (holds : List GatedHold) : Store :=
  s.eachCeiling (fun hold c => { c with usage := c.usage.hold hold.ask.held }) holds

def Store.giveEach (s : Store) (holds : List GatedHold) : Store :=
  s.eachCeiling (fun hold c => { c with usage := c.usage.release hold.ask.held }) holds

theorem Store.giveEach_takeEach {s : Store} (hs : s.NonNeg) {holds : List GatedHold}
    (hnodup : (holds.map (·.budget.id)).Nodup) (hheld : ∀ hold ∈ holds, hold.ask.held.NonNeg) :
    (s.takeEach holds).giveEach holds = s := by
  have hceilings : ((s.takeEach holds).giveEach holds).ceilings = s.ceilings := by
    funext id
    by_cases hid : ∃ hold ∈ holds, hold.budget.id = id
    · obtain ⟨hold, hmem, rfl⟩ := hid
      rw [giveEach, eachCeiling_of_mem _ _ hnodup hmem, takeEach,
        eachCeiling_of_mem _ _ hnodup hmem]
      cases hc : s.ceilings hold.budget.id with
      | none => rfl
      | some c => simp [Usage.release_hold (hs.ceilings _ c hc) (hheld hold hmem)]
    · have hid : ∀ hold ∈ holds, hold.budget.id ≠ id := fun hold hmem heq => hid ⟨hold, hmem, heq⟩
      rw [giveEach, eachCeiling_of_not_mem _ _ hid, takeEach, eachCeiling_of_not_mem _ _ hid]
  rw [giveEach, eachCeiling_eq, ← giveEach, hceilings, takeEach, eachCeiling_eq]

/-! ### Taking the holds -/

variable {w : Store}

theorem ends_giveBackTaken (taken : List GatedHold) (h : s.Open c w) :
    (giveBackTaken db taken).Ends s (fun _ s' => s'.Open c (w.giveEach taken))
      (Fails fun _ s' => s'.committed = c) := by
  induction taken generalizing s w with
  | nil => exact h
  | cons hold taken ih =>
    rw [giveBackTaken, ends_bind]
    exact (ends_execute h _).mono (fun _ s₁ h₁ => ih h₁) fun _ _ he => he.mono fun _ hd => hd.1

/-- **Every ceiling takes its hold, or none does.** -/
theorem ends_takeGated {base : Store} (hbase : base.NonNeg) (reservedOutputTokens : Option ℤ)
    (holds taken : List GatedHold) (hnodup : ((taken ++ holds).map (·.budget.id)).Nodup)
    (hheld : ∀ hold ∈ taken, hold.ask.held.NonNeg) (hholds : ∀ hold ∈ holds, hold.ask.held.NonNeg)
    (h : s.Open c (base.takeEach taken)) : (takeGated db reservedOutputTokens taken holds).Ends s
      (fun refused s' => s'.Open c (if refused.isSome then base
        else base.takeEach (taken ++ holds))) (Fails fun _ s' => s'.committed = c) := by
  induction holds generalizing s taken with
  | nil =>
    rw [takeGated, ends_pure]
    simpa using h
  | cons hold rest ih =>
    rw [takeGated, ends_bind]
    refine (ends_statement h _).mono (fun held s₁ h₁ => ?_) fun _ _ he => he.mono fun _ hd => hd.1
    obtain ⟨hstatement, hopen⟩ := h₁
    rw [ends_ite]
    refine ⟨fun htook => ?_, fun hrefused => ?_⟩
    · rcases (base.takeEach taken).holdCeiling_cases hold.budget.id hold.ask with hcase | hcase
      · rw [hcase] at hopen
        have htaken : s₁.Open c (base.takeEach (taken ++ [hold])) := by
          rw [Store.takeEach, Store.eachCeiling_append]
          exact hopen
        have hrest := ih (taken ++ [hold]) (by simpa using hnodup)
          (fun g hg => by
            rcases mem_append.mp hg with hg | hg
            · exact hheld g hg
            · rw [mem_singleton.mp hg]
              exact hholds hold mem_cons_self)
          (fun g hg => hholds g (mem_cons_of_mem hold hg)) htaken
        simpa using hrest
      · rw [hstatement, hcase] at htook
        cases htook
    · have hsame : s₁.Open c (base.takeEach taken) := by
        rcases (base.takeEach taken).holdCeiling_cases hold.budget.id hold.ask with hcase | hcase
        · rw [hstatement, hcase] at hrefused
          exact absurd rfl hrefused
        · rwa [hcase] at hopen
      rw [ends_bind]
      refine (ends_giveBackTaken taken hsame).mono (fun _ s₂ h₂ => ?_) fun _ _ he => he
      have htaken : (taken.map (·.budget.id)).Nodup := by
        rw [map_append] at hnodup
        exact hnodup.of_append_left
      rw [Store.giveEach_takeEach hbase htaken hheld] at h₂
      rw [ends_bind, moveRefusal, ends_bind]
      refine (ends_query h₂ _).mono (fun _ s₃ h₃ => ?_) fun _ _ he => he.mono fun _ hd => hd.1
      rw [ends_pure, ends_pure]
      exact h₃.2

/-! ### What a move leaves on the ceilings -/

theorem retarget_heldOn (h : ReservationHandle) (move : ReservationMove) (id : ℕ) :
    (retarget h move).heldOn id =
      if id ∈ move.target.map ApplicableCeiling.id then move.held.bind else ⟨0, 0, 0⟩ := by
  have hids : (retarget h move).scopedBudgetIds = move.target.map ApplicableCeiling.id := by
    simp [retarget, ReservationHandle.scopedBudgetIds, toApplicableBudget, Function.comp_def]
  rw [ReservationHandle.heldOn, hids]
  split_ifs with hid
  · have hsome : move.target ≠ [] := by
      rintro hnone
      rw [hnone] at hid
      cases hid
    simp [retarget, ReservationHandle.ceilingHeld, hsome]
  · rfl

theorem mem_gatedHolds {hold : GatedHold} : hold ∈ gatedHolds h move ↔
    (∃ c ∈ move.added, hold = ⟨toApplicableBudget c,
      ⟨move.gatedAmount, move.held.tokens, move.held.requests, true⟩⟩) ∨
    0 < move.held.amount - h.scopedEstimate ∧ ∃ b ∈ move.shared,
      hold = ⟨b, ⟨some (move.held.amount - h.scopedEstimate), 0, 0, false⟩⟩ := by
  rw [gatedHolds, mem_insertionSort, mem_append, mem_map]
  refine or_congr ⟨?_, ?_⟩ ?_
  · rintro ⟨c, hc, rfl⟩
    exact ⟨c, hc, rfl⟩
  · rintro ⟨c, hc, rfl⟩
    exact ⟨c, hc, rfl⟩
  · split_ifs with hgrows
    · simp [hgrows, eq_comm]
    · simp [hgrows]

section
variable (hplan : Planned h newId move)
include hplan

theorem Planned.mem_added {c : ApplicableCeiling} :
    c ∈ move.added ↔ c ∈ move.target ∧ c.id ∉ h.scopedBudgetIds := by
  rw [hplan.added, mem_filter, decide_eq_true_eq]

theorem Planned.mem_shared {b : ApplicableBudget} :
    b ∈ move.shared ↔ b ∈ h.scopedBudgets ∧ b.id ∈ move.target.map ApplicableCeiling.id := by
  rw [hplan.shared, mem_filter, decide_eq_true_eq]

theorem Planned.mem_dropped {id : ℕ} : id ∈ move.dropped.map ApplicableBudget.id ↔
    id ∈ h.scopedBudgetIds ∧ id ∉ move.target.map ApplicableCeiling.id := by
  rw [hplan.dropped, mem_map, ReservationHandle.scopedBudgetIds, mem_map]
  constructor
  · rintro ⟨b, hb, rfl⟩
    rw [mem_filter, decide_eq_true_eq] at hb
    exact ⟨⟨b, hb.1, rfl⟩, hb.2⟩
  · rintro ⟨⟨b, hb, rfl⟩, hid⟩
    exact ⟨b, mem_filter.mpr ⟨hb, decide_eq_true hid⟩, rfl⟩

theorem Planned.gatedHolds_nodup (hscoped : h.scopedBudgetIds.Nodup) :
    ((gatedHolds h move).map (·.budget.id)).Nodup := by
  have hadded : (move.added.map ApplicableCeiling.id).Nodup := by
    rw [hplan.added]
    exact hplan.target.sublist (filter_sublist.map _)
  have hshared : (move.shared.map ApplicableBudget.id).Nodup := by
    rw [hplan.shared]
    exact hscoped.sublist (filter_sublist.map _)
  rw [gatedHolds, ((perm_insertionSort _ _).map _).nodup_iff, map_append, map_map]
  refine List.Nodup.append hadded ?_ fun id hid hid' => ?_
  · split_ifs
    · rw [map_map]
      exact hshared
    · exact nodup_nil
  · obtain ⟨c, hc, rfl⟩ := mem_map.mp hid
    split_ifs at hid'
    · rw [map_map] at hid'
      obtain ⟨b, hb, heq⟩ := mem_map.mp hid'
      refine (hplan.mem_added.mp hc).2 (mem_map.mpr ⟨b, (hplan.mem_shared.mp hb).1, heq⟩)
    · cases hid'

theorem Planned.gatedHolds_nonNeg : ∀ hold ∈ gatedHolds h move, hold.ask.held.NonNeg := by
  intro hold hmem
  rcases mem_gatedHolds.mp hmem with ⟨c, -, rfl⟩ | ⟨hgrows, b, -, rfl⟩
  · refine ⟨?_, hplan.held.2⟩
    rw [Ask.held, hplan.gated]
    exact hplan.held.1
  · exact ⟨hgrows.le, le_rfl, le_rfl⟩

theorem Planned.gatedHolds_id {hold : GatedHold} (hmem : hold ∈ gatedHolds h move) :
    hold.budget.id ∈ move.target.map ApplicableCeiling.id ∧
      (hold.budget.id ∈ h.scopedBudgetIds → 0 < move.held.amount - h.scopedEstimate) := by
  rcases mem_gatedHolds.mp hmem with ⟨c, hc, rfl⟩ | ⟨hgrows, b, hb, rfl⟩
  · have hadded := hplan.mem_added.mp hc
    exact ⟨mem_map_of_mem hadded.1, fun hscoped => absurd hscoped hadded.2⟩
  · exact ⟨(hplan.mem_shared.mp hb).2, fun _ => hgrows⟩

end

theorem Held.change_self (held k : Held) : held.change k k = held := by
  simp [Held.change]

theorem Usage.hold_held (u : Usage) (k : HeldAmounts) :
    (u.hold k).held = u.held.change ⟨0, 0, 0⟩ k.bind := by
  simp [Usage.hold, Usage.held, Held.change, HeldAmounts.bind]

theorem Usage.release_held {u : Usage} {k : HeldAmounts} (hk : k.NonNeg)
    (hamount : k.bind.amount ≤ u.reserved) (htokens : k.bind.tokens ≤ u.reservedTokens)
    (hrequests : k.bind.requests ≤ u.reservedRequests) :
    (u.release k).held = u.held.change k.bind ⟨0, 0, 0⟩ := by
  have hclamped : ∀ {column amount : ℤ}, amount ≤ column →
      clampedSub column amount = column - amount := by
    intro column amount hle
    rw [clampedSub, if_neg (by omega)]
  have hdollars : (if 0 < k.amount then clampedSub u.reserved (bindUsd k.amount) else u.reserved) =
      u.reserved - bindUsd k.amount := by
    split_ifs with hpos
    · exact hclamped hamount
    · rw [le_antisymm (not_lt.mp hpos) hk.1, bindUsd_zero, sub_zero]
  have hcount : ∀ column amount : ℤ, amount ≤ column → 0 ≤ amount →
      (if 0 < amount then clampedSub column amount else column) = column - amount := by
    intro column amount hle hnonneg
    split_ifs with hpos
    · exact hclamped hle
    · omega
  have htokens := hcount u.reservedTokens k.tokens htokens hk.2.1
  have hrequests := hcount u.reservedRequests k.requests hrequests hk.2.2
  simp only [Usage.release, Usage.held, Held.change, HeldAmounts.bind, hdollars, htokens,
    hrequests, add_zero]

theorem Planned.counters (hplan : Planned h newId move) (hok : Consistent h store)
    (hlost : ¬ Lost h store) {base : Store} (hbase : SameHolds store base) (id : ℕ) :
    (((base.takeEach (gatedHolds h move)).releaseHolds (move.dropped.map ApplicableBudget.id)
        h.ceilingHeld).ceilings id).map (·.usage.held) = (store.ceilings id).map fun c =>
        c.usage.held.change (h.heldOn id) ((retarget h move).heldOn id) := by
  have hread : ((store.ceilings id).map fun c =>
      c.usage.held.change (h.heldOn id) ((retarget h move).heldOn id)) =
      (base.ceilings id).map fun c =>
        c.usage.held.change (h.heldOn id) ((retarget h move).heldOn id) := by
    have heq := congrArg (Option.map fun held : Held =>
      held.change (h.heldOn id) ((retarget h move).heldOn id)) (hbase.ceilings id)
    simpa [Function.comp_def] using heq
  have hnodup := hplan.gatedHolds_nodup hok.budgets
  rw [hread, Store.releaseHolds, Store.updateCeilings_ceilings, retarget_heldOn]
  by_cases hscoped : id ∈ h.scopedBudgetIds
  · have hsome : h.scopedBudgets ≠ [] := by
      intro hnone
      rw [ReservationHandle.scopedBudgetIds, hnone] at hscoped
      cases hscoped
    have hown : h.heldOn id = h.ceilingHeld.bind := if_pos hscoped
    by_cases htarget : id ∈ move.target.map ApplicableCeiling.id
    · -- A shared ceiling grows by the difference.
      rw [if_neg fun hdropped => (hplan.mem_dropped.mp hdropped).2 htarget, if_pos htarget, hown]
      obtain ⟨hle, htokens, hrequests⟩ := hplan.grows hsome
      obtain ⟨b, hb, rfl⟩ := mem_map.mp hscoped
      by_cases hgrows : 0 < move.held.amount - h.scopedEstimate
      · have hmem := mem_gatedHolds.mpr
          (.inr ⟨hgrows, b, hplan.mem_shared.mpr ⟨hb, htarget⟩, rfl⟩)
        rw [Store.takeEach, Store.eachCeiling_of_mem _ base hnodup hmem, Option.map_map]
        refine congrArg (Option.map · _) (funext fun c => ?_)
        simp [Usage.hold, Usage.held, Held.change, HeldAmounts.bind, Ask.held,
          ReservationHandle.ceilingHeld, htokens, hrequests,
          hplan.whole.bindUsd_sub hok.scopedEstimate]
        omega
      · have heq : move.held.amount = h.scopedEstimate := by linarith
        rw [Store.takeEach, Store.eachCeiling_of_not_mem]
        · refine congrArg (Option.map · _) (funext fun c => ?_)
          have hheld : move.held = h.ceilingHeld := by
            rw [ReservationHandle.ceilingHeld, ← heq, ← htokens, ← hrequests]
          rw [hheld, Held.change_self]
        · intro hold hmem hid
          exact hgrows ((hplan.gatedHolds_id hmem).2 (hid ▸ hscoped))
    · -- A dropped ceiling gives its hold back.
      rw [if_pos (hplan.mem_dropped.mpr ⟨hscoped, htarget⟩), if_neg htarget, Store.takeEach,
        Store.eachCeiling_of_not_mem]
      · cases hc : base.ceilings id with
        | none => rfl
        | some c =>
          have hmap := hbase.ceilings id
          rw [hc] at hmap
          obtain ⟨old, hold, heq⟩ := Option.map_eq_some_iff.mp hmap
          obtain ⟨h₁, h₂, h₃⟩ := Held.mk.inj heq
          have hcovered := hok.covered hlost id old hold
          rw [hown, h₁, h₂, h₃] at hcovered
          rw [hown]
          exact congrArg some
            (Usage.release_held hok.nonneg hcovered.1 hcovered.2.1 hcovered.2.2)
      · intro hold hmem hid
        exact htarget (hid ▸ (hplan.gatedHolds_id hmem).1)
  · have hown : h.heldOn id = ⟨0, 0, 0⟩ := if_neg hscoped
    rw [if_neg fun hdropped => hscoped (hplan.mem_dropped.mp hdropped).1, hown]
    by_cases htarget : id ∈ move.target.map ApplicableCeiling.id
    · -- An added ceiling takes the whole hold.
      obtain ⟨ceiling, hceiling, rfl⟩ := mem_map.mp htarget
      have hmem := mem_gatedHolds (h := h).mpr
        (.inl ⟨ceiling, hplan.mem_added.mpr ⟨hceiling, hscoped⟩, rfl⟩)
      have htaken := Store.eachCeiling_of_mem
        (fun hold c => { c with usage := c.usage.hold hold.ask.held }) base hnodup hmem
      have hask : Ask.held ⟨move.gatedAmount, move.held.tokens, move.held.requests, true⟩ =
          move.held := by
        rw [Ask.held, hplan.gated]
      dsimp only [toApplicableBudget] at htaken
      rw [Store.takeEach, htaken, Option.map_map, hask, if_pos htarget]
      exact congrArg (Option.map · _) (funext fun c => Usage.hold_held c.usage move.held)
    · rw [Store.takeEach, Store.eachCeiling_of_not_mem, if_neg htarget]
      · exact congrArg (Option.map · _) (funext fun c => (Held.change_self _ _).symm)
      · intro hold hmem hid
        exact htarget (hid ▸ (hplan.gatedHolds_id hmem).1)

/-! ### What a move leaves in the ledger -/

variable {id : ℕ}

theorem Store.reservation?_id {s : Store} {r : Reservation}
    (hr : s.reservation? id = some r) : r.id = id := by
  have hfound : s.reservations.find? (fun r => decide (r.id = id)) = some r := hr
  simpa using List.find?_some hfound

theorem Store.reservation?_updateReservation (s : Store) (id id' : ℕ)
    {f : Reservation → Reservation} (hf : ∀ r, (f r).id = r.id) :
    (s.updateReservation id f).reservation? id' =
      (s.reservation? id').map fun r => if r.id = id then f r else r := by
  have hsame : ((fun r : Reservation => decide (r.id = id')) ∘
      fun r => if r.id = id then f r else r) = fun r => decide (r.id = id') := by
    funext r
    dsimp only [Function.comp_apply]
    split_ifs
    · rw [hf]
    · rfl
  rw [reservation?, updateReservation, List.find?_map, hsame]
  rfl

theorem Store.reservation?_addReservation (s : Store) (r : Reservation) (id : ℕ) :
    (s.addReservation r).reservation? id =
      (s.reservation? id).or (if r.id = id then some r else none) := by
  rw [reservation?, addReservation, List.find?_append, reservation?]
  by_cases hid : r.id = id <;> simp [hid]

theorem Store.reservation?_of_isActive {s : Store}
    (hkey : (s.reservations.map Reservation.id).Nodup) (hactive : s.isActive id = true) :
    ∃ r, s.reservation? id = some r ∧ r.status = .active := by
  rw [isActive, any_eq_true] at hactive
  obtain ⟨r, hr, hmatch⟩ := hactive
  rw [Bool.and_eq_true, decide_eq_true_eq, decide_eq_true_eq] at hmatch
  cases hfound : s.reservation? id with
  | none =>
    have hnone := List.find?_eq_none.mp hfound r hr
    exact absurd (decide_eq_true hmatch.1) hnone
  | some r' =>
    have hr' := mem_of_find?_eq_some hfound
    have heq := inj_on_of_nodup_map hkey hr' hr
      ((Store.reservation?_id hfound).trans hmatch.1.symm)
    exact ⟨r', rfl, heq ▸ hmatch.2⟩

theorem Planned.ids (hplan : Planned h newId move) (hscoped : h.scopedBudgetIds.Nodup) :
    (h.scopedBudgetIds.filter (fun id => id ∉ move.dropped.map ApplicableBudget.id) ++
      move.added.map ApplicableCeiling.id).Perm (move.target.map ApplicableCeiling.id) := by
  have hadded : ∀ id, id ∈ move.added.map ApplicableCeiling.id ↔
      id ∈ move.target.map ApplicableCeiling.id ∧ id ∉ h.scopedBudgetIds := by
    intro id
    rw [mem_map, mem_map]
    constructor
    · rintro ⟨c, hc, rfl⟩
      have hmem := hplan.mem_added.mp hc
      exact ⟨⟨c, hmem.1, rfl⟩, hmem.2⟩
    · rintro ⟨⟨c, hc, rfl⟩, hid⟩
      exact ⟨c, hplan.mem_added.mpr ⟨hc, hid⟩, rfl⟩
  refine (perm_ext_iff_of_nodup ?_ hplan.target).mpr fun id => ?_
  · refine List.Nodup.append (hscoped.filter _) ?_ fun id hid hid' => ?_
    · rw [hplan.added]
      exact hplan.target.sublist (filter_sublist.map _)
    · exact ((hadded id).mp hid').2 (mem_of_mem_filter hid)
  · rw [mem_append, mem_filter, decide_eq_true_eq, hplan.mem_dropped, hadded]
    tauto

theorem Planned.lines (hplan : Planned h newId move) (hscoped : h.scopedBudgetIds.Nodup)
    {lines : List (ℕ × Held)} {held : Held}
    (hlines : lines.Perm (h.scopedBudgetIds.map fun id => (id, held))) (new : Held) :
    (((lines.filter fun line => line.1 ∉ move.dropped.map ApplicableBudget.id).map
      fun line => (line.1, new)) ++
        (move.added.map ApplicableCeiling.id).map fun id => (id, new)).Perm
      (move.target.map fun c => (c.id, new)) := by
  have hkept := (hlines.filter
    fun line => line.1 ∉ move.dropped.map ApplicableBudget.id).map fun line => (line.1, new)
  have hids := (hplan.ids hscoped).map fun id => (id, new)
  rw [filter_map, map_map] at hkept
  rw [map_append, map_map (f := ApplicableCeiling.id)] at hids
  refine (hkept.append_right _).trans ?_
  rw [map_map] at hids ⊢
  exact hids

/-! ### Applying a move -/

/-- What the store is once a move came to this. -/
def Came (h : ReservationHandle) (move : ReservationMove) (store : Store) :
    MoveOutcome → Store → Prop
  | .moved, w => ¬ Lost h store ∧ Moved h move store w
  | .reclaimed, w => Lost h store ∧ Kept store w
  | .refused _, w => Kept store w

theorem Kept.refl (s : Store) : Kept s s := ⟨.refl s, rfl⟩

theorem Kept.rollPeriod {s t : Store} (h : Kept s t) (id : ℕ) (now start : ℤ) (ends : Option ℤ) :
    Kept s (t.rollPeriod id now start ends) :=
  ⟨h.holds.trans (.rollPeriod t id now start ends), h.rows⟩

theorem Kept.reservation? {s t : Store} (h : Kept s t) (id : ℕ) :
    t.reservation? id = s.reservation? id := by
  rw [Store.reservation?, Store.reservation?, h.rows]

theorem Kept.isActive {s t : Store} (h : Kept s t) (id : ℕ) : t.isActive id = s.isActive id := by
  rw [Store.isActive, Store.isActive, h.rows]

theorem not_lost (hid : h.reservationId = some id) : ¬ Lost h store ↔ store.isActive id = true := by
  simp [Lost, hid]

theorem ends_recordMove (hplan : Planned h newId move) (hok : Consistent h store)
    (hnew : store.reservation? newId = none) (hlost : ¬ Lost h store) (now : ℤ)
    (hrows : w.reservations = store.reservations)
    (husers : ∀ id, (store.users id).map (·.usage.held) = (w.users id).map (·.usage.held))
    (hcounters : ∀ id, (w.ceilings id).map (·.usage.held) = (store.ceilings id).map fun c =>
      c.usage.held.change (h.heldOn id) ((retarget h move).heldOn id)) (hopen : s.Open c w) :
    (recordMove db h move now).Ends s (fun _ s' => ∃ w, s'.Open c w ∧ Moved h move store w)
      (Fails fun _ s' => s'.committed = c) := by
  have htarget : ∀ ceiling ∈ move.target, (retarget h move).heldOn ceiling.id = move.held.bind :=
    fun ceiling hceiling => by rw [retarget_heldOn, if_pos (mem_map_of_mem hceiling)]
  have hdropped : ∀ id, id ∉ move.target.map ApplicableCeiling.id →
      (retarget h move).heldOn id = ⟨0, 0, 0⟩ := fun id hid => by rw [retarget_heldOn, if_neg hid]
  have hread : ∀ id, w.reservation? id = store.reservation? id := fun id => by
    rw [Store.reservation?, Store.reservation?, hrows]
  unfold recordMove
  cases hid : h.reservationId with
  | some id =>
    have hwrites : move.writesRow = false := by rw [hplan.writes, hid]; rfl
    have hrow : (retarget h move).reservationId = some id := by
      rw [retarget, hwrites, hid]
      rfl
    dsimp only
    refine (ends_execute hopen _).mono (fun _ s₁ h₁ => ⟨_, h₁, ?_⟩)
      fun _ _ he => he.mono fun _ hd => hd.1
    refine ⟨husers, hcounters, htarget, hdropped, fun id' hid' => ?_, fun id' hid' => ?_⟩
    · rw [hrow] at hid'
      cases hid'
      obtain ⟨r, hr, hstatus⟩ := Store.reservation?_of_isActive hok.key ((not_lost hid).mp hlost)
      rw [Store.moveLines, Store.reservation?_updateReservation, hread, hr]
      · rw [Option.map_some, if_pos (Store.reservation?_id hr)]
        exact ⟨_, rfl, hstatus,
          hplan.lines hok.budgets (hok.lines id hid r hr hstatus) move.held.bind⟩
      · exact fun _ => rfl
    · rw [Store.moveLines, Store.reservation?_updateReservation, hread]
      · cases hr : store.reservation? id' with
        | none => rfl
        | some r =>
          have hne : r.id ≠ id := by
            rw [Store.reservation?_id hr]
            rintro rfl
            exact hid' hrow
          rw [Option.map_some, if_neg hne]
      · exact fun _ => rfl
  | none =>
    dsimp only
    rw [ends_ite]
    refine ⟨fun hwrites => ?_, fun hwrites => ⟨w, hopen, husers, hcounters, htarget, hdropped,
      fun id' hid' => ?_, fun id' _ => hread id'⟩⟩
    · have hrow : (retarget h move).reservationId = some newId := by
        rw [retarget, hwrites, hplan.row, hid]
        rfl
      have hreservationId : move.reservationId = newId := by rw [hplan.row, hid]; rfl
      refine (ends_execute hopen _).mono (fun _ s₁ h₁ => ⟨_, h₁, ?_⟩)
        fun _ _ he => he.mono fun _ hd => hd.1
      refine ⟨husers, hcounters, htarget, hdropped, fun id' hid' => ?_, fun id' hid' => ?_⟩
      · rw [hrow] at hid'
        cases hid'
        rw [Store.reservation?_addReservation, hread, hnew, Option.none_or, hreservationId,
          if_pos rfl]
        exact ⟨_, rfl, rfl, .refl _⟩
      · rw [Store.reservation?_addReservation, hread, hreservationId, if_neg, Option.or_none]
        rintro rfl
        exact hid' hrow
    · rw [retarget, if_neg hwrites, hid] at hid'
      cases hid'

theorem ends_applyHolds (hplan : Planned h newId move) (hok : Consistent h store)
    (hstore : store.NonNeg) (hnew : store.reservation? newId = none) (hlost : ¬ Lost h store)
    (hopen : s.Open c store) :
    (applyHolds db h move).Ends s (fun o s' => ∃ w, s'.Open c w ∧ Came h move store o w)
      (Fails fun _ s' => s'.committed = c) := by
  rw [applyHolds, ends_bind, deferCommitFlush]
  refine (ends_execute hopen id).mono (fun _ s₁ h₁ => ?_) fun _ _ he => he.mono fun _ hd => hd.1
  rw [ends_bind]
  refine (ends_execute h₁ id).mono (fun _ s₂ h₂ => ?_) fun _ _ he => he.mono fun _ hd => hd.1
  rw [ends_bind, ends_now, ends_bind]
  refine (ends_rollEndedWindows (P := Kept store) (fun w id now start ends hw => hw.rollPeriod ..)
    _ _ (.refl store) h₂).mono (fun _ s₃ h₃ => ?_) fun _ _ he => he
  obtain ⟨base, hbase, hkept⟩ := h₃
  rw [ends_bind]
  refine (ends_takeGated (NonNeg.sameHolds hstore hkept.holds) _ _ []
    (hplan.gatedHolds_nodup hok.budgets) (by simp) hplan.gatedHolds_nonNeg hbase).mono
    (fun refused s₄ h₄ => ?_) fun _ _ he => he
  cases refused with
  | some refusal => exact ⟨base, h₄, hkept⟩
  | none =>
    have htaken : s₄.Open c (base.takeEach (gatedHolds h move)) := h₄
    have hgiven : (if move.dropped ≠ [] then
        execute db .move fun s =>
          s.releaseHolds (move.dropped.map ApplicableBudget.id) h.ceilingHeld
        else (pure () : Call Unit)).Ends s₄
        (fun _ s' => s'.Open c ((base.takeEach (gatedHolds h move)).releaseHolds
          (move.dropped.map ApplicableBudget.id) h.ceilingHeld))
        (Fails fun _ s' => s'.committed = c) := by
      rw [ends_ite]
      refine ⟨fun _ => (ends_execute htaken _).mono (fun _ _ h => h)
        fun _ _ he => he.mono fun _ hd => hd.1, fun hnone => ?_⟩
      rw [not_not] at hnone
      rw [hnone, map_nil, ends_pure, Store.releaseHolds, Store.updateCeilings_nil]
      exact htaken
    dsimp only
    rw [ends_bind]
    refine hgiven.mono (fun _ s₅ h₅ => ?_) fun _ _ he => he
    have hwritten : base.takeEach (gatedHolds h move) =
        { base with ceilings := (base.takeEach (gatedHolds h move)).ceilings } :=
      Store.eachCeiling_eq _ base (gatedHolds h move)
    rw [ends_bind]
    refine (ends_recordMove hplan hok hnew hlost _ ?_ ?_ (hplan.counters hok hlost hkept.holds)
      h₅).mono (fun _ s₆ h₆ => ?_) fun _ _ he => he
    · rw [hwritten]
      exact hkept.rows
    · rw [hwritten]
      exact hkept.holds.users
    · obtain ⟨w, hw, hmoved⟩ := h₆
      exact ⟨w, hw, hlost, hmoved⟩

theorem ends_applyMove (hplan : Planned h newId move) (hok : Consistent h store)
    (hstore : store.NonNeg) (hnew : store.reservation? newId = none) (hopen : s.Open c store) :
    (applyMove db h move).Ends s (fun o s' => ∃ w, s'.Open c w ∧ Came h move store o w)
      (Fails fun _ s' => s'.committed = c) := by
  unfold applyMove
  cases hid : h.reservationId with
  | none =>
    refine ends_applyHolds hplan hok hstore hnew ?_ hopen
    rintro ⟨id, hmem, -⟩
    rw [hid] at hmem
    cases hmem
  | some id =>
    dsimp only
    rw [ends_bind]
    refine (ends_query hopen _).mono (fun active s₁ h₁ => ?_)
      fun _ _ he => he.mono fun _ hd => hd.1
    obtain ⟨rfl, h₁⟩ := h₁
    rw [ends_ite]
    refine ⟨fun hactive => ends_applyHolds hplan hok hstore hnew ((not_lost hid).mpr hactive) h₁,
      fun hinactive => ?_⟩
    exact ⟨store, h₁, ⟨id, hid, Bool.eq_false_of_not_eq_true hinactive⟩, .refl store⟩

/-! ### Whether it landed -/

theorem ends_inBlock {α : Type} {x : Call α} {Q : α → Store → Prop}
    (hx : x.Ends s (fun a s' => ∃ w, s'.Open c w ∧ Q a w) (Fails fun _ s' => s'.committed = c)) :
    (inBlock db x).Ends s (fun a s' => ∃ w, s'.At w ∧ Q a w)
      (Fails fun _ s' => s'.At c ∨ ∃ a w, s'.At w ∧ Q a w) := by
  refine ends_onDatabaseError
    (P := fun s' => s'.committed = c ∨ ∃ a w, s'.committed = w ∧ Q a w) ?_ fun d s₁ h₁ => ?_
  · rw [ends_bind]
    refine hx.mono (fun a s₁ h₁ => ?_) fun _ _ he => he.mono fun _ hd => .inl hd
    obtain ⟨w, hopen, hQ⟩ := h₁
    rw [ends_bind]
    refine (ends_commit_any hopen).mono (fun _ s₂ h₂ => ⟨w, h₂, hQ⟩)
      fun _ _ he => he.mono fun _ hd => ?_
    rcases hd with hd | hd
    · exact .inl hd.1
    · exact .inr ⟨a, w, hd.1, hQ⟩
  · rw [ends_bind]
    refine ends_suppress_rollback.mono (fun _ s₂ h₂ => ?_) fun _ _ h => h
    refine ⟨d, rfl, ?_⟩
    rcases h₁ with h₁ | ⟨a, w, h₁, hQ⟩
    · exact .inl (h₁ ▸ h₂)
    · exact .inr ⟨a, w, h₁ ▸ h₂, hQ⟩

theorem moved_of_linesMatch (hplan : Planned h newId move) (hok : Consistent h store)
    (hkept : Kept store w) (hid : h.reservationId = some id) {r : Reservation}
    (hr : store.reservation? id = some r) (hstatus : r.status = .active)
    (hmatch : linesMatch move r.lines = true) : Moved h move store w := by
  rw [linesMatch, Bool.and_eq_true, decide_eq_true_eq, all_eq_true] at hmatch
  obtain ⟨hids, hheld⟩ := hmatch
  have hlines := hok.lines id hid r hr hstatus
  have hsame : ∀ id, id ∈ h.scopedBudgetIds ↔ id ∈ move.target.map ApplicableCeiling.id := by
    intro id'
    have hmem := (hlines.map Prod.fst).mem_iff (a := id')
    rw [map_map] at hmem
    rw [← mem_toFinset (l := move.target.map ApplicableCeiling.id), ← hids,
      mem_toFinset, hmem]
    simp
  have hsome : h.scopedBudgets ≠ [] := by
    intro hnone
    obtain ⟨ceiling, rest, hcons⟩ :=
      exists_cons_of_ne_nil (hplan.changes.resolve_right (not_not.mpr hnone))
    have hmem := (hsame ceiling.id).mpr
      (mem_map_of_mem (hcons ▸ mem_cons_self))
    rw [ReservationHandle.scopedBudgetIds, hnone] at hmem
    cases hmem
  have hbind : h.ceilingHeld.bind = move.held.bind := by
    obtain ⟨b, rest, hcons⟩ := exists_cons_of_ne_nil hsome
    have hmem : (b.id, h.ceilingHeld.bind) ∈ r.lines := by
      rw [hlines.mem_iff, ReservationHandle.scopedBudgetIds, hcons]
      exact mem_cons_self
    have hread := of_decide_eq_true (hheld _ hmem)
    rw [← hread]
    simp [HeldAmounts.bind, Held.read, bindUsd_usd]
  have hown : ∀ id, (retarget h move).heldOn id = h.heldOn id := by
    intro id'
    rw [retarget_heldOn, ReservationHandle.heldOn, hbind]
    exact if_congr (hsame id').symm rfl rfl
  have hwrites : move.writesRow = false := by rw [hplan.writes, hid]; rfl
  have hrow : (retarget h move).reservationId = some id := by
    rw [retarget, hwrites, hid]
    rfl
  refine ⟨hkept.holds.users, fun id' => ?_, fun ceiling hceiling => ?_, fun id' hid' => ?_,
    fun id' hid' => ?_, fun id' _ => hkept.reservation? id'⟩
  · rw [hown, ← hkept.holds.ceilings]
    exact congrArg (Option.map · _) (funext fun ceiling => (Held.change_self _ _).symm)
  · rw [retarget_heldOn, if_pos (mem_map_of_mem hceiling)]
  · rw [retarget_heldOn, if_neg hid']
  · rw [hrow] at hid'
    cases hid'
    refine ⟨r, (hkept.reservation? id).trans hr, hstatus, hlines.trans ?_⟩
    have hperm : h.scopedBudgetIds.Perm (move.target.map ApplicableCeiling.id) :=
      (perm_ext_iff_of_nodup hok.budgets hplan.target).mpr hsame
    have hmap := hperm.map fun id => (id, move.held.bind)
    rw [map_map] at hmap
    rw [hbind]
    exact hmap

/-- The store between a move and the look at whether it landed: as before it, or what it came to. -/
def Between (h : ReservationHandle) (move : ReservationMove) (store w : Store) : Prop :=
  w = store ∨ ∃ o, Came h move store o w

theorem Between.moved_of_row (hnew : store.reservation? newId = none)
    (hw : Between h move store w) (hrow : (w.reservation? newId).isSome = true) :
    Moved h move store w ∧ ¬ Lost h store := by
  have habsent : ∀ {w : Store}, Kept store w → ¬ (w.reservation? newId).isSome = true := by
    intro w hkept
    rw [hkept.reservation? newId, hnew]
    exact Bool.false_ne_true
  rcases hw with rfl | ⟨_ | _ | refusal, hcame⟩
  · exact absurd hrow (habsent (.refl _))
  · exact ⟨hcame.2, hcame.1⟩
  · exact absurd hrow (habsent hcame.2)
  · exact absurd hrow (habsent hcame)

theorem ends_landed (hplan : Planned h newId move) (hok : Consistent h store)
    (hnew : store.reservation? newId = none) (hw : Between h move store w) (hat : s.At w) :
    (landed db h move).Ends s (fun did s' => ∃ w, s'.Open s.committed w ∧
        (did = true → ¬ Lost h store ∧ Moved h move store w))
      (Fails fun _ s' => s'.committed = s.committed) := by
  have hcommitted : s.committed = w := hat.1
  rw [landed, ends_ite, hcommitted]
  refine ⟨fun hwrites => ?_, fun hwrites => ?_⟩
  · have hid : h.reservationId = none := by
      rw [hplan.writes, Bool.and_eq_true] at hwrites
      exact Option.isNone_iff_eq_none.mp hwrites.1
    have hrow : move.reservationId = newId := by rw [hplan.row, hid]; rfl
    rw [ends_bind, ends_now]
    refine (ends_statement hat _).mono (fun did s₁ h₁ => ?_) fun _ _ he => he.mono fun _ hd => hd.1
    refine ⟨_, h₁.2, fun hdid => ?_⟩
    obtain ⟨rfl, hopen⟩ := h₁
    rw [hrow] at hdid ⊢
    by_cases hsome : (w.reservation? newId).isSome = true
    · rw [if_pos hsome]
      exact (hw.moved_of_row hnew hsome).symm
    · rw [if_neg hsome] at hdid
      cases hdid
  · rw [ends_bind]
    refine (ends_query hat _).mono (fun active s₁ h₁ => ?_) fun _ _ he => he.mono fun _ hd => hd.1
    obtain ⟨rfl, h₁⟩ := h₁
    rw [ends_ite]
    refine ⟨fun hactive => ?_, fun _ => ⟨w, h₁, fun h => by cases h⟩⟩
    refine (ends_query h₁ _).mono (fun did s₂ h₂ => ?_) fun _ _ he => he.mono fun _ hd => hd.1
    obtain ⟨rfl, h₂⟩ := h₂
    refine ⟨w, h₂, fun hmatch => ?_⟩
    cases hid : h.reservationId with
    | none =>
      -- Nothing is written under the id of a move that needs no row.
      have hrow : move.reservationId = newId := by rw [hplan.row, hid]; rfl
      rw [hrow] at hactive
      have hfound : (w.reservation? newId).isSome = true := by
        rw [Store.isActive, any_eq_true] at hactive
        obtain ⟨r, hr, hr'⟩ := hactive
        rw [Bool.and_eq_true, decide_eq_true_eq] at hr'
        rw [Store.reservation?, List.find?_isSome]
        exact ⟨r, hr, decide_eq_true hr'.1⟩
      exact (hw.moved_of_row hnew hfound).symm
    | some id =>
      have hrow : move.reservationId = id := by rw [hplan.row, hid]; rfl
      rw [hrow] at hactive hmatch
      have hlines : ∀ {w : Store}, Kept store w → w.isActive id = true →
          linesMatch move ((w.reservation? id).map Reservation.lines |>.getD []) = true →
          ¬ Lost h store ∧ Moved h move store w := by
        intro w hkept hactive hmatch
        rw [hkept.isActive] at hactive
        obtain ⟨r, hr, hstatus⟩ := Store.reservation?_of_isActive hok.key hactive
        rw [hkept.reservation?, hr] at hmatch
        exact ⟨(not_lost hid).mpr hactive,
          moved_of_linesMatch hplan hok hkept hid hr hstatus hmatch⟩
      rcases hw with rfl | ⟨_ | _ | refusal, hcame⟩
      · exact hlines (.refl _) hactive hmatch
      · exact hcame
      · exact hlines hcame.2 hactive hmatch
      · exact hlines hcame hactive hmatch

theorem ends_moveLanded (hplan : Planned h newId move) (hok : Consistent h store)
    (hnew : store.reservation? newId = none) (hw : Between h move store w) (hat : s.At w) :
    (moveLanded db h move).Ends s
      (fun did s' => did = true → ¬ Lost h store ∧ Moved h move store s'.committed)
      fun _ _ => False := by
  have hlanded : (landed db h move).Ends s _ _ := ends_landed hplan hok hnew hw hat
  refine ends_onDatabaseError (P := fun _ => True) ((ends_inBlock hlanded).mono
    (fun did s₁ h₁ => ?_) fun _ _ he => he.mono fun _ _ => trivial) fun d s₁ _ => ?_
  · obtain ⟨w₁, hat₁, hmoved⟩ := h₁
    rw [hat₁.1]
    exact hmoved
  · rw [ends_pure]
    intro hdid
    cases hdid

theorem ends_moveOutcome (hplan : Planned h newId move) (hok : Consistent h store)
    (hstore : store.NonNeg) (hnew : store.reservation? newId = none) (hat : s.At store) :
    (moveOutcome db h move).Ends s (fun o s' => Came h move store o s'.committed)
      (Fails fun _ _ => True) := by
  refine ends_onDatabaseError (P := fun s' => ∃ w, s'.At w ∧ Between h move store w)
    ((ends_inBlock (ends_applyMove hplan hok hstore hnew hat)).mono (fun o s₁ h₁ => ?_)
      fun _ _ he => he.mono fun _ hd => ?_) fun d s₁ h₁ => ?_
  · obtain ⟨w, hw, hcame⟩ := h₁
    rw [hw.1]
    exact hcame
  · rcases hd with hd | ⟨o, w, hd, hcame⟩
    · exact ⟨store, hd, .inl rfl⟩
    · exact ⟨w, hd, .inr ⟨o, hcame⟩⟩
  · obtain ⟨w, hw, hbetween⟩ := h₁
    rw [ends_bind]
    refine (ends_moveLanded hplan hok hnew hbetween hw).mono (fun did s₂ h₂ => ?_)
      fun _ _ he => he.elim
    rw [ends_ite]
    refine ⟨fun hdid => h₂ hdid, fun _ => ?_⟩
    rw [ends_raise]
    exact ⟨d, rfl, trivial⟩

/-- **A reservation moves exactly, or not at all.**  A plan that changes nothing leaves handle and
store.  A move of a row that is still this request's leaves on each ceiling, in the row and in the
handle what it says; of a row terminated or reclaimed in the meantime, it names its ceilings in the
handle and leaves every hold and row.  A refusal leaves all three. -/
theorem move_exact (db : Db) (h : ReservationHandle) (provider : Option String)
    (quote : Option Quote) (newId : ℕ) (store : Store) (hstore : store.NonNeg)
    (hok : Consistent h store) (hnew : store.reservation? newId = none) :
    (moveReservation db h provider quote newId).Ends (.start store) (fun h' final =>
        match plan h provider quote newId with
        | none => h' = h ∧ final.committed = store
        | some move => h' = retarget h move ∧ (Lost h store → Kept store final.committed) ∧
          (¬ Lost h store → Moved h move store final.committed))
      fun e final => ∀ refusal, e = .raised refusal → Kept store final.committed := by
  unfold moveReservation
  cases hplan : plan h provider quote newId with
  | none => exact ⟨rfl, rfl⟩
  | some move =>
    have hplan := planned hok hplan
    dsimp only
    rw [ends_bind]
    refine (ends_moveOutcome hplan hok hstore hnew (Session.at_start store)).mono
      (fun o s₁ h₁ => ?_) fun e s₁ he refusal hraised => ?_
    · cases o with
      | moved => exact ⟨rfl, fun hlost => absurd hlost h₁.1, fun _ => h₁.2⟩
      | reclaimed => exact ⟨rfl, fun _ => h₁.2, fun hlost => absurd h₁.1 hlost⟩
      | refused refusal => exact fun _ _ => h₁
    · obtain ⟨d, rfl, -⟩ := he
      cases hraised

/-! ### Runs -/

/-- A ceiling on one provider's share of a key, as the request read it. -/
def keyCeiling (id : ℕ) (provider : Option String) : ApplicableCeiling :=
  ⟨id, .apiToken, provider, fun _ => .ok none, none, none, none⟩

/-- A dollar held on the ceilings of the key, one for each of two providers and one for both. -/
def dollarHandle : ReservationHandle where
  userId := 0
  estimate := 1
  reserved := false
  strategy := .forUpdate
  scopedBudgets := [toApplicableBudget (keyCeiling 7 (some "east")),
    toApplicableBudget (keyCeiling 9 none)]
  scopedEstimate := 1
  scopedRequestEstimate := 1
  reservationId := some 3
  reservationTtlSec := defaultReservationTtlSec
  scopeCeilings := [keyCeiling 7 (some "east"), keyCeiling 8 (some "west"), keyCeiling 9 none]

/-- Ceilings of ten dollars, and the row of the dollar, which they hold while it is active. -/
def threeCeilings (status : Status) : Store where
  users _ := none
  budgets _ := some ⟨⟨some 10000000, none, none⟩, fun _ => .ok none⟩
  ceilings id :=
    if status = .active ∧ (id = 7 ∨ id = 9) then
      some ⟨.apiToken, none, 0, ⟨0, 1000000, 0, 0, 0, 1⟩, none, none⟩
    else some ⟨.apiToken, none, 0, ⟨0, 0, 0, 0, 0, 0⟩, none, none⟩
  reservations := [⟨3, 0, false, ⟨1000000, 0, 0⟩, status, 500,
    [(9, ⟨1000000, 0, 1⟩), (7, ⟨1000000, 0, 1⟩)]⟩]

theorem threeCeilings_nonNeg (status : Status) : (threeCeilings status).NonNeg := by
  refine ⟨fun id user huser => (by cases huser), fun id c hc => ?_⟩
  dsimp only [threeCeilings] at hc
  split_ifs at hc
  · cases hc
    exact ⟨by norm_num, le_rfl, zero_le_one⟩
  · cases hc
    exact ⟨le_rfl, le_rfl, le_rfl⟩

theorem consistent_threeCeilings (status : Status) :
    Consistent dollarHandle (threeCeilings status) := by
  have hdollar : Whole 1 := ⟨1000000, by decide +kernel⟩
  have hheld : dollarHandle.ceilingHeld.bind = ⟨1000000, 0, 1⟩ := by decide +kernel
  refine ⟨by decide, by decide, ⟨hdollar, zero_le_one⟩, hdollar, ⟨zero_le_one, le_rfl, zero_le_one⟩,
    fun hlost id c hc => ?_, nodup_singleton 3, fun id hid r hr _ => ?_⟩
  · have hactive : status = .active := by
      cases status with
      | active => rfl
      | _ => exact absurd ⟨3, rfl, rfl⟩ hlost
    rw [ReservationHandle.heldOn, hheld]
    have hids : id ∈ dollarHandle.scopedBudgetIds ↔ id = 7 ∨ id = 9 := by
      simp [ReservationHandle.scopedBudgetIds, dollarHandle, toApplicableBudget, keyCeiling]
    dsimp only [threeCeilings] at hc
    simp only [hids, hactive, true_and] at hc ⊢
    split_ifs at hc ⊢
    · cases hc
      exact ⟨le_rfl, le_rfl, le_rfl⟩
    · cases hc
      exact ⟨le_rfl, le_rfl, le_rfl⟩
  · cases hid
    cases hr
    rw [hheld]
    exact List.Perm.swap _ _ _

/-- Onto the other provider at two dollars: one ceiling is added, one grows and one is dropped. -/
theorem move_exact_run : (moveReservation (answering fun _ _ => .done) dollarHandle (some "west")
      (some ⟨2000000, 0, false, none⟩) 4 (.start (threeCeilings .active))).1.isOk = true ∧
    (moveReservation (answering fun _ _ => .done) dollarHandle (some "west")
      (some ⟨2000000, 0, false, none⟩) 4).Ends (.start (threeCeilings .active)) (fun h' final =>
        match plan dollarHandle (some "west") (some ⟨2000000, 0, false, none⟩) 4 with
        | none => h' = dollarHandle ∧ final.committed = threeCeilings .active
        | some move => h' = retarget dollarHandle move ∧
          (Lost dollarHandle (threeCeilings .active) →
            Kept (threeCeilings .active) final.committed) ∧
          (¬ Lost dollarHandle (threeCeilings .active) →
            Moved dollarHandle move (threeCeilings .active) final.committed))
      fun e final =>
        ∀ refusal, e = .raised refusal → Kept (threeCeilings .active) final.committed :=
  ⟨by decide +kernel,
    move_exact _ _ _ _ _ _ (threeCeilings_nonNeg _) (consistent_threeCeilings _) rfl⟩

/-- **A reclaimed row still retargets its handle**, with every database answer as it should be and its
holds given back. -/
theorem reclaimed_retargets :
    ∃ db h provider quote newId store, (∀ l, db.Calm l) ∧ store.NonNeg ∧ Consistent h store ∧
      store.reservation? newId = none ∧ Lost h store ∧
      ∃ ids, (moveReservation db h provider quote newId (.start store)).1.toOption.map
        ReservationHandle.scopedBudgetIds = some ids ∧ ids ≠ h.scopedBudgetIds := by
  refine ⟨answering fun _ _ => .done, dollarHandle, some "west", some ⟨2000000, 0, false, none⟩, 4,
    threeCeilings .expired, fun _ _ => rfl, threeCeilings_nonNeg _, consistent_threeCeilings _, rfl,
    ⟨3, rfl, rfl⟩, [8, 9], ?_, by decide⟩
  decide +kernel

end Otari.Reservations

import Otari.Reservations.UserLeg
import Otari.Reservations.MoveExact

/-!
# Reservations — TopUpsFollow — the counters follow the handle

Whatever stops a top-up, the counters hold more by exactly what the handle says it grew by
(`Follows`): what was taken and is not to be kept is given back and comes off the handle, and what
is kept stays on both.  The row says the same (`RowSays`) unless the growth was refused by the
user's budget or failed before it reached the row.  `hold_tool_call` then gives the ceilings their growth
back, so that a refused call holds nothing: `top_up_follows`.

`top_up_leaves` shows what is outside of it.  A reclaimed row leaves its handle naming amounts that
nothing holds; an amount finer than a micro-dollar reaches no column; and a failure that comes after
the ceilings grew restores the handle under the growth they keep.
-/

namespace Otari.Reservations
open Transactions Raising Raising.Program Function
open List

variable {db : Db} {s : Session Store} {store base c w : Store} {h : ReservationHandle}

/-! ### The handle, the counters and the row -/

def ReservationHandle.heldBy (h : ReservationHandle) (userId : ℕ) : Held :=
  if userId = h.userId ∧ h.reserved = true then
    ⟨bindUsd h.estimate, h.tokenEstimate, h.requestEstimate⟩
  else ⟨0, 0, 0⟩

/-- **The counters follow the handle**: what each holds changed as the handle did. -/
structure Follows (before after : ReservationHandle) (s t : Store) : Prop where
  users : ∀ id, (t.users id).map (·.usage.held) =
    (s.users id).map fun u => u.usage.held.change (before.heldBy id) (after.heldBy id)
  ceilings : ∀ id, (t.ceilings id).map (·.usage.held) =
    (s.ceilings id).map fun c => c.usage.held.change (before.heldOn id) (after.heldOn id)

/-- The active row of a handle records its amounts. -/
def RowSays (h : ReservationHandle) (s : Store) : Prop :=
  ∀ id ∈ h.reservationId, ∀ r ∈ s.active, r.id = id → r.userReserved = h.reserved ∧
    r.userHeld = ⟨bindUsd h.estimate, h.tokenEstimate, h.requestEstimate⟩ ∧
    r.lines.Perm (h.scopedBudgetIds.map fun id => (id, h.ceilingHeld.bind))

/-- A handle that agrees with its row, in whole micro-dollars. -/
structure Recorded (h : ReservationHandle) (s : Store) : Prop where
  budgets : h.scopedBudgetIds.Nodup
  estimate : Whole h.estimate
  scopedEstimate : Whole h.scopedEstimate
  tokens : 0 ≤ h.scopedTokenEstimate
  idle : h.reserved = false → h.estimate = 0 ∧ h.tokenEstimate = 0 ∧ h.requestEstimate = 0
  row : RowSays h s

theorem Follows.of_sameHolds {before after : ReservationHandle} {s t : Store}
    (hby : after.heldBy = before.heldBy) (hon : after.heldOn = before.heldOn)
    (h : SameHolds s t) : Follows before after s t := by
  refine ⟨fun id => ?_, fun id => ?_⟩
  · rw [← h.users, hby]
    exact congrArg (Option.map · _) (funext fun u => (Held.change_self _ _).symm)
  · rw [← h.ceilings, hon]
    exact congrArg (Option.map · _) (funext fun ceiling => (Held.change_self _ _).symm)

theorem Follows.trans {before after : ReservationHandle} {s t u : Store}
    (h : Follows before after s t) (hu : SameHolds t u) : Follows before after s u :=
  ⟨fun id => (hu.users id).symm.trans (h.users id),
    fun id => (hu.ceilings id).symm.trans (h.ceilings id)⟩

theorem RowSays.of_active {s t : Store} (h' : RowSays h s) (hactive : s.active = t.active) :
    RowSays h t := by
  rw [RowSays, ← hactive]
  exact h'

theorem Whole.add {a b : ℚ} (ha : Whole a) (hb : Whole b) : Whole (a + b) := by
  obtain ⟨m, rfl⟩ := ha
  obtain ⟨n, rfl⟩ := hb
  exact ⟨m + n, (usd_add m n).symm⟩

theorem whole_zero : Whole 0 := ⟨0, by simp [usd]⟩

theorem Whole.sub {a b : ℚ} (ha : Whole a) (hb : Whole b) : Whole (a - b) := by
  obtain ⟨m, rfl⟩ := ha
  obtain ⟨n, rfl⟩ := hb
  exact ⟨m - n, by rw [usd, usd, usd, Int.cast_sub, sub_div]⟩

theorem Whole.bindUsd_add {a b : ℚ} (ha : Whole a) (hb : Whole b) :
    bindUsd (a + b) = bindUsd a + bindUsd b := by
  obtain ⟨m, rfl⟩ := ha
  obtain ⟨n, rfl⟩ := hb
  rw [← usd_add, bindUsd_usd, bindUsd_usd, bindUsd_usd]

/-! ### Growth -/

/-- Every amount of a growth is from zero up, in whole micro-dollars. -/
structure Growth.Sound (g : Growth) : Prop where
  additional : 0 ≤ g.additional ∧ Whole g.additional
  grownTokens : 0 ≤ g.grownTokens
  userAdditional : 0 ≤ g.userAdditional ∧ Whole g.userAdditional
  userGrownTokens : 0 ≤ g.userGrownTokens

theorem growthOf_sound (hok : Recorded h store) {estimate : ℚ} (hestimate : Whole estimate)
    (tokens : ℤ) : (growthOf h estimate tokens).Sound := by
  have hwhole : ∀ {amount : ℚ}, Whole amount → Whole (max (max estimate 0 - amount) 0) :=
    fun hamount => ((hestimate.max whole_zero).sub hamount).max whole_zero
  refine ⟨?_, ?_, ⟨le_max_right _ _, hwhole hok.estimate⟩, le_max_right _ _⟩
  · rw [growthOf]
    dsimp only
    split_ifs
    · exact ⟨le_max_right _ _, hwhole hok.scopedEstimate⟩
    · exact ⟨le_rfl, whole_zero⟩
  · rw [growthOf]
    dsimp only
    split_ifs
    · exact le_max_right _ _
    · exact le_rfl

variable {g : Growth}

theorem Growth.ask_held (g : Growth) : g.ask.held = ⟨g.additional, g.grownTokens, 0⟩ := rfl

theorem Growth.Sound.ask_nonNeg (hg : g.Sound) : g.ask.held.NonNeg :=
  ⟨hg.additional.1, hg.grownTokens, le_rfl⟩

theorem Growth.Sound.zero (hg : g.Sound) (hnone : ¬ g.OnCeilings) :
    g.additional = 0 ∧ g.grownTokens = 0 := by
  rw [Growth.OnCeilings, not_or, not_lt, not_lt] at hnone
  exact ⟨le_antisymm hnone.1 hg.additional.1, le_antisymm hnone.2 hg.grownTokens⟩

theorem Store.addHolds_nothing (s : Store) (ids : List ℕ) : s.addHolds ids ⟨0, 0, 0⟩ = s := by
  refine s.updateCeilings_self fun id _ c _ => ?_
  simp [Usage.hold, bindUsd_zero]

theorem ReservationHandle.growCeilings_nothing (h : ReservationHandle) :
    h.growCeilings 0 0 = h := by
  simp [growCeilings]

theorem ReservationHandle.growCeilings_heldOn (h : ReservationHandle) {amount : ℚ} (tokens : ℤ)
    (hwhole : Whole h.scopedEstimate) (hamount : Whole amount) (id : ℕ) :
    (h.growCeilings amount tokens).heldOn id =
      if id ∈ h.scopedBudgetIds then
        (h.heldOn id).change ⟨0, 0, 0⟩ ⟨bindUsd amount, tokens, 0⟩ else h.heldOn id := by
  have hids : (h.growCeilings amount tokens).scopedBudgetIds = h.scopedBudgetIds := rfl
  rw [heldOn, heldOn, hids]
  split_ifs
  · simp [growCeilings, ceilingHeld, HeldAmounts.bind, Held.change, hwhole.bindUsd_add hamount]
  · rfl

theorem follows_addHolds (hwhole : Whole h.scopedEstimate) (hg : g.Sound) :
    Follows h (h.growCeilings g.additional g.grownTokens) store
      (store.addHolds h.scopedBudgetIds g.ask.held) := by
  have hby : (h.growCeilings g.additional g.grownTokens).heldBy = h.heldBy := rfl
  refine ⟨fun id => ?_, fun id => ?_⟩
  · rw [hby]
    exact congrArg (Option.map · _) (funext fun u => (Held.change_self _ _).symm)
  · rw [h.growCeilings_heldOn _ hwhole hg.additional.2, Store.addHolds,
      Store.updateCeilings_ceilings]
    split_ifs
    · rw [Option.map_map]
      refine congrArg (Option.map · _) (funext fun ceiling => ?_)
      simp [Usage.hold, Usage.held, Held.change, Growth.ask_held]
      omega
    · exact congrArg (Option.map · _) (funext fun ceiling => (Held.change_self _ _).symm)

/-! ### The phases of a top-up -/

def ReservationHandle.withLeg (h : ReservationHandle) : Option ReservationHandle → ReservationHandle
  | none => h
  | some leg => { h.growUser leg.estimate leg.tokenEstimate with reserved := true }

/-- What a leg of a top-up took. -/
inductive LegGrew (userId : ℕ) (c : Store) : Option ReservationHandle → Store → Prop where
  | nothing {w : Store} (hw : SameHolds c w) : LegGrew userId c none w
  | held {leg : ReservationHandle} {w : Store} (hestimate : 0 ≤ leg.estimate ∧ Whole leg.estimate)
      (htokens : 0 ≤ leg.tokenEstimate) (hw : Standing userId c w) :
      LegGrew userId c (some leg) (w.updateUser userId fun user =>
        { user with usage := user.usage.hold ⟨leg.estimate, leg.tokenEstimate, 0⟩ })

section
variable (hserver : db.Honest) (hback : db.Calm .giveBack)
include hserver hback

theorem ends_growOnCeilings (hstore : store.NonNeg) (hok : Recorded h store) (hg : g.Sound)
    (hat : s.At store) : (growOnCeilings db g).Ends (s, h)
      (fun _ p => p.1.At (store.addHolds h.scopedBudgetIds g.ask.held) ∧
        p.2 = h.growCeilings g.additional g.grownTokens)
      (fun e p => p.1.committed = store ∧ (∀ refusal, e = .raised refusal → p.1.At store) ∧
        p.2 = h) := by
  rw [growOnCeilings, ends_ite]
  refine ⟨fun _ => ?_, fun hnone => ?_⟩
  · have hstart : s.At (store.addHolds [] g.ask.held) := by
      rwa [Store.addHolds, Store.updateCeilings_nil]
    rw [ends_bind, readHandle, ends_read, ends_bind, ends_onFst]
    refine (ends_reserveFrom hserver hback hstore hg.ask_nonNeg h.scopedBudgets []
      (by simpa [ReservationHandle.scopedBudgetIds] using hok.budgets) hstart).mono
      (fun refused s₁ h₁ => ?_) fun _ _ he => ?_
    · cases refused with
      | none => exact ⟨h₁, rfl⟩
      | some refusing =>
        have hat₁ : s₁.At store := h₁
        dsimp only
        rw [ends_bind, ends_onFst, ceilingBlockedAxis, ends_bind]
        refine (ends_query hat₁ _).mono (fun _ s₂ h₂ => ?_) fun _ _ he => ?_
        · rw [ends_pure, ends_raise]
          exact ⟨h₂.2.1, fun _ _ => h₂.2, rfl⟩
        · obtain ⟨d, rfl, hd, -⟩ := he
          refine ⟨hd, fun _ heq => ?_, rfl⟩
          cases heq
    · obtain ⟨d, rfl, hd⟩ := he
      refine ⟨hd, fun _ heq => ?_, rfl⟩
      cases heq
  · obtain ⟨hadditional, htokens⟩ := hg.zero hnone
    rw [ends_pure, Growth.ask_held, hadditional, htokens, Store.addHolds_nothing,
      ReservationHandle.growCeilings_nothing]
    exact ⟨hat, rfl⟩

theorem ends_growOnUser (hg : g.Sound) (price : Option (Option Bool)) (modelIsFree : Option Bool)
    (strategy : Strategy) (hat : s.At c) : (growOnUser db g price modelIsFree strategy).Ends (s, h)
      (fun delta p => ∃ w, p.1.At w ∧ LegGrew h.userId c delta w ∧ p.2 = h.withLeg delta)
      (fun e p => Ended db laterKinds (SameHolds c) e p.1 ∧ p.2 = h) := by
  rw [growOnUser, ends_ite]
  refine ⟨fun _ => ?_, fun _ => ⟨c, hat, .nothing (.refl c), rfl⟩⟩
  rw [ends_bind, readHandle, ends_read, ends_bind, ends_onFst]
  refine (ends_userLeg hback hserver (r := g.userLeg h price modelIsFree strategy) rfl rfl rfl
    hat).mono (fun leg s₁ h₁ => ?_) fun _ _ he => ⟨he, rfl⟩
  obtain ⟨w, hw, htook, hamounts⟩ := h₁
  rw [ends_ite]
  refine ⟨fun hreserved => ?_, fun hreserved => ?_⟩
  · obtain ⟨free, hestimate, htokens⟩ := hamounts hreserved
    rw [ends_bind, changeHandle, ends_update, ends_pure]
    refine ⟨w, hw, ?_, rfl⟩
    cases htook with
    | nothing hleg _ =>
      rw [hleg] at hreserved
      cases hreserved
    | held _ _ hstanding =>
      refine .held ?_ ?_ hstanding
      · rw [hestimate, Request.ask]
        cases free
        · exact ⟨le_max_right _ _, hg.userAdditional.2.max whole_zero⟩
        · exact ⟨le_rfl, whole_zero⟩
      · rw [htokens]
        exact le_min (le_max_right _ _) (by norm_num [maxCountLimit])
  · rw [ends_pure]
    refine ⟨w, hw, ?_, rfl⟩
    cases htook with
    | nothing _ hsame => exact .nothing hsame
    | held hleg _ _ => exact absurd hleg hreserved

end

/-- The handle after a growth of all that grew. -/
def ReservationHandle.grown (h : ReservationHandle) (g : Growth)
    (delta : Option ReservationHandle) : ReservationHandle :=
  (h.growCeilings g.additional g.grownTokens).withLeg delta

theorem ReservationHandle.grown_heldOn (h : ReservationHandle) (g : Growth)
    (delta : Option ReservationHandle) :
    (h.grown g delta).heldOn = (h.growCeilings g.additional g.grownTokens).heldOn := by
  cases delta <;> rfl

theorem Recorded.heldBy (hok : Recorded h store) :
    h.heldBy h.userId = ⟨bindUsd h.estimate, h.tokenEstimate, h.requestEstimate⟩ := by
  rw [ReservationHandle.heldBy]
  split_ifs with hreserved
  · rfl
  · obtain ⟨h₁, h₂, h₃⟩ :=
      hok.idle (Bool.eq_false_of_not_eq_true fun hr => hreserved ⟨rfl, hr⟩)
    rw [h₁, h₂, h₃, bindUsd_zero]

theorem Recorded.heldBy_reserved (hok : Recorded h store) (reserved : Bool) :
    ({ h with reserved := reserved || h.reserved } : ReservationHandle).heldBy = h.heldBy := by
  funext id
  cases hreserved : h.reserved with
  | true => simp [ReservationHandle.heldBy, hreserved]
  | false =>
    obtain ⟨h₁, h₂, h₃⟩ := hok.idle hreserved
    simp [ReservationHandle.heldBy, hreserved, h₁, h₂, h₃, bindUsd_zero]

variable {delta : Option ReservationHandle}

theorem LegGrew.follows (hok : Recorded h store) (hg : g.Sound)
    (hleg : LegGrew h.userId (store.addHolds h.scopedBudgetIds g.ask.held) delta w) :
    Follows h (h.grown g delta) store w := by
  have hceilings : Follows h _ store _ := follows_addHolds hok.scopedEstimate hg
  cases hleg with
  | nothing hw => exact hceilings.trans hw
  | @held leg c hestimate htokens hstanding =>
    have hmid := hceilings.trans hstanding.1
    refine ⟨fun id => ?_, fun id => ?_⟩
    · have huser := hmid.users id
      have hby : (h.growCeilings g.additional g.grownTokens).heldBy = h.heldBy := rfl
      simp only [hby, Held.change_self] at huser
      by_cases hid : id = h.userId
      · subst hid
        have hchange : ∀ u : Usage, (u.hold ⟨leg.estimate, leg.tokenEstimate, 0⟩).held =
            u.held.change (h.heldBy h.userId) ((h.grown g (some leg)).heldBy h.userId) := by
          intro u
          have hafter : (h.grown g (some leg)).heldBy h.userId =
              ⟨bindUsd h.estimate + bindUsd leg.estimate,
                h.tokenEstimate + leg.tokenEstimate, h.requestEstimate⟩ := by
            simp [ReservationHandle.heldBy, ReservationHandle.grown, ReservationHandle.withLeg,
              ReservationHandle.growUser, ReservationHandle.growCeilings,
              hok.estimate.bindUsd_add hestimate.2]
          rw [hafter, hok.heldBy]
          simp [Usage.hold, Usage.held, Held.change]
          omega
        rw [Store.updateUser]
        dsimp only
        rw [update_self, Option.map_map]
        have hmap := congrArg (Option.map fun held : Held =>
          held.change (h.heldBy h.userId) ((h.grown g (some leg)).heldBy h.userId)) huser
        rw [Option.map_map, Option.map_map] at hmap
        refine Eq.trans ?_ hmap
        exact congrArg (Option.map · _) (funext fun u => hchange u.usage)
      · rw [Store.updateUser]
        dsimp only
        rw [update_of_ne hid, huser]
        have hnone : ∀ h' : ReservationHandle, h'.userId = h.userId → h'.heldBy id = ⟨0, 0, 0⟩ :=
          fun h' hsame => if_neg fun hboth => hid (hboth.1.trans hsame)
        rw [hnone h rfl, hnone (h.grown g (some leg)) rfl]
        exact congrArg (Option.map · _) (funext fun u => (Held.change_self _ _).symm)
    · rw [h.grown_heldOn]
      exact hmid.ceilings id

theorem LegGrew.active
    (hleg : LegGrew h.userId (store.addHolds h.scopedBudgetIds g.ask.held) delta w) :
    store.active = w.active := by
  cases hleg with
  | nothing hw => exact hw.active
  | held _ _ hstanding => exact hstanding.1.active

/-! ### The row -/

/-- What `grow` leaves of an active row. -/
def Store.grown (s : Store) (id : ℕ) (g : Growth) (delta : Option ReservationHandle) : Store :=
  ((s.growReservation id ((delta.map ReservationHandle.estimate).getD 0)
    ((delta.map ReservationHandle.tokenEstimate).getD 0) delta.isSome).2).growLines id g.additional
    g.grownTokens

theorem Store.growLines_nothing (s : Store) (id : ℕ) : s.growLines id 0 0 = s := by
  have hsame : ∀ r : Reservation, (if r.id = id then
      { r with lines := r.lines.map fun line =>
        (line.1, (⟨line.2.amount + bindUsd 0, line.2.tokens + 0, line.2.requests⟩ : Held)) }
      else r) = r := by
    intro r
    simp [bindUsd_zero]
  rw [growLines, updateReservation]
  simp only [hsame, map_id']

theorem Store.active_updateReservation {s : Store} {id : ℕ} {f : Reservation → Reservation}
    (hstatus : ∀ r, (f r).status = r.status) {r' : Reservation}
    (hr' : r' ∈ (s.updateReservation id f).active) (hid' : r'.id = id) :
    ∃ r ∈ s.active, r.id = id ∧ r' = f r := by
  obtain ⟨hmem, hactive⟩ := mem_filter.mp hr'
  obtain ⟨r, hr, rfl⟩ := mem_map.mp hmem
  have hsame : r.id = id := by
    by_contra hne
    rw [if_neg hne] at hid'
    exact hne hid'
  rw [if_pos hsame, hstatus] at hactive
  exact ⟨r, mem_filter.mpr ⟨hr, hactive⟩, hsame, if_pos hsame⟩

/-- **The row grows as the handle did.** -/
theorem rowSays_grown (hok : Recorded h store) (hg : g.Sound)
    (hdelta : ∀ leg ∈ delta, Whole leg.estimate) {id : ℕ} (hid : h.reservationId = some id)
    (hrow : RowSays h w) (hactive : w.isActive id = true) :
    RowSays (h.grown g delta) (w.grown id g delta) := by
  have hestimate : bindUsd (h.grown g delta).estimate =
      bindUsd h.estimate + bindUsd ((delta.map ReservationHandle.estimate).getD 0) := by
    cases delta with
    | none => simp [ReservationHandle.grown, ReservationHandle.withLeg,
        ReservationHandle.growCeilings, bindUsd_zero]
    | some leg => exact hok.estimate.bindUsd_add (hdelta leg rfl)
  have htokens : (h.grown g delta).tokenEstimate =
      h.tokenEstimate + (delta.map ReservationHandle.tokenEstimate).getD 0 := by
    cases delta with
    | none => exact (add_zero _).symm
    | some leg => rfl
  have hreserved : (h.grown g delta).reserved = (delta.isSome || h.reserved) := by
    cases delta <;> rfl
  have hrequests : (h.grown g delta).requestEstimate = h.requestEstimate := by
    cases delta <;> rfl
  have hheld : (h.grown g delta).ceilingHeld.bind = ⟨h.ceilingHeld.bind.amount +
      bindUsd g.additional, h.ceilingHeld.bind.tokens + g.grownTokens,
      h.ceilingHeld.bind.requests⟩ := by
    have hbind := hok.scopedEstimate.bindUsd_add hg.additional.2
    cases delta <;>
      exact congrArg (Held.mk · (h.scopedTokenEstimate + g.grownTokens) h.scopedRequestEstimate)
        hbind
  have hids : (h.grown g delta).scopedBudgetIds = h.scopedBudgetIds := by cases delta <;> rfl
  have hreservation : (h.grown g delta).reservationId = h.reservationId := by cases delta <;> rfl
  intro id' hid' r hr hrid
  rw [hreservation, hid] at hid'
  cases hid'
  obtain ⟨r₁, hr₁, hid₁, rfl⟩ := Store.active_updateReservation (by intro r; rfl) hr hrid
  rw [Store.growReservation, if_pos hactive] at hr₁
  obtain ⟨r₀, hr₀, hid₀, rfl⟩ := Store.active_updateReservation
    (fun r => by split_ifs <;> rfl) hr₁ hid₁
  have hstatus : r₀.status = .active := of_decide_eq_true (mem_filter.mp hr₀).2
  obtain ⟨hreserved₀, hheld₀, hlines₀⟩ := hrow _ hid r₀ hr₀ hid₀
  simp only [if_pos hstatus]
  refine ⟨?_, ?_, ?_⟩
  · rw [hreserved, hreserved₀]
  · rw [hestimate, htokens, hrequests, hheld₀]
  · have hmap := hlines₀.map fun line => (line.1, (⟨line.2.amount + bindUsd g.additional,
      line.2.tokens + g.grownTokens, line.2.requests⟩ : Held))
    rw [map_map] at hmap
    rw [hids, hheld]
    exact hmap

theorem ends_ledgerGrow (hserver : db.Honest) (hg : g.Sound) {reservationId : Option ℕ}
    (delta : Option ReservationHandle) (h : s.At w) : (ledgerGrow db reservationId g delta).Ends s
      (fun grown s' =>
        if grown = true then
          match reservationId with
          | none => s'.At w
          | some id => w.isActive id = true ∧ s'.At (w.grown id g delta)
        else s'.At w ∧ ∃ id ∈ reservationId, w.isActive id = false)
      (Fails fun d s' => s'.committed = w ∧ db.Raises .grow d) := by
  unfold ledgerGrow
  cases reservationId with
  | none =>
    rw [ends_pure, if_pos rfl]
    exact h
  | some id =>
    dsimp only
    rw [ends_bind]
    refine (ends_statement h _).mono (fun active s₁ h₁ => ?_) fun _ _ he => he
    obtain ⟨rfl, hopen⟩ := h₁
    by_cases hactive : w.isActive id = true
    · have hlines : (if g.OnCeilings then
          execute db .grow fun s => s.growLines id g.additional g.grownTokens
          else (pure () : Call Unit)).Ends s₁ (fun _ s' => s'.Open w (w.grown id g delta))
          (Fails fun d s' => s'.committed = w ∧ db.Raises .grow d) := by
        rw [ends_ite]
        refine ⟨fun _ => ends_execute hopen _, fun hnone => ?_⟩
        obtain ⟨hadditional, htokens⟩ := hg.zero hnone
        rw [ends_pure, Store.grown, hadditional, htokens, Store.growLines_nothing]
        exact hopen
      rw [ends_ite, Store.growReservation, if_pos hactive]
      refine ⟨fun _ => ?_, fun hfalse => absurd rfl hfalse⟩
      rw [ends_bind]
      refine hlines.mono (fun _ s₂ h₂ => ?_) fun _ _ he => he
      rw [ends_bind]
      refine (ends_commit hserver h₂).mono (fun _ s₃ h₃ => ?_)
        fun _ _ he => he.mono fun _ hd => ⟨hd.1.1, hd.2⟩
      rw [ends_pure, if_pos rfl]
      exact ⟨hactive, h₃⟩
    · rw [Store.growReservation, if_neg hactive] at hopen ⊢
      rw [ends_ite]
      refine ⟨fun hfalse => absurd hfalse Bool.false_ne_true, fun _ => ?_⟩
      rw [ends_pure, if_neg Bool.false_ne_true]
      exact ⟨hopen, id, rfl, Bool.eq_false_of_not_eq_true hactive⟩

/-! ### Unwinding -/

theorem SameHolds.releaseHolds {s t : Store} (h : SameHolds s t) (ids : List ℕ)
    (k : HeldAmounts) : SameHolds (s.releaseHolds ids k) (t.releaseHolds ids k) := by
  have hheld : ∀ {u v : Usage}, u.held = v.held → (u.release k).held = (v.release k).held := by
    intro u v heq
    obtain ⟨h₁, h₂, h₃⟩ := Held.mk.inj heq
    simp only [Usage.release, Usage.held, h₁, h₂, h₃]
  refine ⟨h.users, fun id => ?_, h.active⟩
  have hsame := h.ceilings id
  rw [Store.releaseHolds, Store.releaseHolds, Store.updateCeilings_ceilings,
    Store.updateCeilings_ceilings]
  split_ifs
  · cases hs : s.ceilings id with
    | none =>
      rw [hs] at hsame
      rw [Option.map_eq_none_iff.mp hsame.symm]
    | some a =>
      rw [hs] at hsame
      obtain ⟨b, hb, heq⟩ := Option.map_eq_some_iff.mp hsame.symm
      rw [hb]
      exact congrArg some (hheld heq.symm)
  · exact hsame

theorem Store.returnDelta_hold {userId : ℕ} (hw : w.NonNeg)
    (huser : (w.activeUser userId).isSome = true) (amount : ℚ) (tokens : ℤ) :
    (w.updateUser userId fun user =>
      { user with usage := user.usage.hold ⟨amount, tokens, 0⟩ }).returnDelta userId amount tokens =
      w := by
  obtain ⟨user, hactive⟩ := Option.isSome_iff_exists.mp huser
  have hfound : w.users userId = some user := (Option.filter_eq_some_iff.mp hactive).1
  have hnonneg := hw.users userId user hfound
  rw [returnDelta, activeUser_updateUser, hactive]
  swap
  · exact fun _ => rfl
  have husers : (((w.updateUser userId fun user =>
      { user with usage := user.usage.hold ⟨amount, tokens, 0⟩ }).updateUser userId fun user =>
        { user with usage :=
          { user.usage with
            reserved := clampedSub user.usage.reserved (bindUsd amount)
            reservedTokens :=
              if tokens ≠ 0 then clampedSub user.usage.reservedTokens tokens
              else user.usage.reservedTokens } }).users) = w.users := by
    funext id
    by_cases hid : id = userId
    · subst hid
      simp only [updateUser, update_self, hfound, Option.map_some, Usage.hold, add_zero,
        clampedSub_add hnonneg.1]
      by_cases htokens : tokens = 0
      · simp [htokens]
      · simp [htokens, clampedSub_add hnonneg.2.1]
    · simp only [updateUser, update_of_ne hid]
  exact congrArg (fun users => { w with users }) husers

theorem LegGrew.returned (hstore : store.NonNeg) (hg : g.Sound)
    (hleg : LegGrew h.userId (store.addHolds h.scopedBudgetIds g.ask.held) delta w) :
    SameHolds store ((delta.elim id fun leg s =>
      s.returnDelta h.userId leg.estimate leg.tokenEstimate)
      (w.releaseHolds h.scopedBudgetIds g.ask.held)) := by
  have hback : (store.addHolds h.scopedBudgetIds g.ask.held).releaseHolds _ _ = _ :=
    Store.releaseHolds_addHolds hstore hg.ask_nonNeg
  cases hleg with
  | nothing hw =>
    have hreleased := hw.releaseHolds h.scopedBudgetIds g.ask.held
    rwa [hback] at hreleased
  | @held leg c _ _ hstanding =>
    have hreleased := hstanding.1.releaseHolds h.scopedBudgetIds g.ask.held
    rw [hback] at hreleased
    have hreturned := Store.returnDelta_hold (NonNeg.sameHolds hstore hreleased) hstanding.2
      leg.estimate leg.tokenEstimate
    have hsame : SameHolds store (c.releaseHolds h.scopedBudgetIds g.ask.held) := hreleased
    rw [← hreturned] at hsame
    exact hsame

section
variable (hback : db.Calm .giveBack)
include hback

/-- **Unwinding.**  Where the row is gone, the counters and the amounts of the handle are as they
were. -/
theorem ends_unwind {E : Failure DatabaseError Refusal → Session Store × ReservationHandle → Prop}
    (hstore : store.NonNeg) (hg : g.Sound) {delta : Option ReservationHandle}
    (hleg : LegGrew h.userId (store.addHolds h.scopedBudgetIds g.ask.held) delta w) (hat : s.At w) :
    (unwind db g delta).Ends (s, h.grown g delta) (fun _ p => ∃ w, p.1.At w ∧ SameHolds store w ∧
        p.2 = { h with reserved := delta.isSome || h.reserved }) E := by
  have hids : (h.grown g delta).scopedBudgetIds = h.scopedBudgetIds := by cases delta <;> rfl
  have huser : (h.grown g delta).userId = h.userId := by cases delta <;> rfl
  have hceilings : (if g.OnCeilings then do
      onFst (release db .giveBack (h.grown g delta).scopedBudgetIds
        ⟨g.additional, g.grownTokens, 0⟩)
      changeHandle fun h => h.growCeilings (-g.additional) (-g.grownTokens)
      else (pure () : Handled Unit)).Ends (s, h.grown g delta)
      (fun _ p => p.1.At (w.releaseHolds h.scopedBudgetIds g.ask.held) ∧
        p.2 = (h.grown g delta).growCeilings (-g.additional) (-g.grownTokens)) E := by
    rw [ends_ite]
    refine ⟨fun _ => ?_, fun hnone => ?_⟩
    · rw [ends_bind, ends_onFst, hids]
      refine (calm_release hback hat _ _).mono (fun _ s₁ h₁ => ?_) fun _ _ h => h
      rw [changeHandle, ends_update]
      exact ⟨h₁, rfl⟩
    · obtain ⟨hadditional, htokens⟩ := hg.zero hnone
      rw [ends_pure, Growth.ask_held, hadditional, htokens, Store.releaseHolds_of_not_some]
      · refine ⟨hat, ?_⟩
        rw [neg_zero, neg_zero, ReservationHandle.growCeilings_nothing]
      · simp [HeldAmounts.Some]
  have hreturned := hleg.returned hstore hg
  rw [unwind, ends_bind, readHandle, ends_read, ends_bind]
  refine hceilings.mono (fun _ p₁ h₁ => ?_) fun _ _ h => h
  obtain ⟨s₁, h₁'⟩ := p₁
  obtain ⟨hat₁, rfl⟩ := h₁
  cases delta with
  | none =>
    refine ⟨_, hat₁, hreturned, ?_⟩
    simp [ReservationHandle.grown, ReservationHandle.withLeg, ReservationHandle.growCeilings]
  | some leg =>
    dsimp only
    rw [ends_bind, ends_onFst, ends_bind, deferCommitFlush]
    refine (calm_execute hback hat₁ id).mono (fun _ s₂ h₂ => ?_) fun _ _ h => h
    rw [ends_bind]
    refine (calm_execute hback h₂ _).mono (fun _ s₃ h₃ => ?_) fun _ _ h => h
    refine (calm_commit hback h₃).mono (fun _ s₄ h₄ => ?_) fun _ _ h => h
    rw [changeHandle, ends_update]
    refine ⟨_, h₄, ?_, ?_⟩
    · rw [huser]
      exact hreturned
    · simp [ReservationHandle.grown, ReservationHandle.withLeg, ReservationHandle.growCeilings,
        ReservationHandle.growUser]

end

/-! ### `increase_reservation` -/

/-- How a top-up ends that returns: the counters and the active row follow the handle.  Where the
row is gone, nothing is held more. -/
structure ToppedUp (h : ReservationHandle) (store : Store) (p : Session Store × ReservationHandle) :
    Prop where
  clean : p.1.At p.1.committed
  follows : Follows h p.2 store p.1.committed
  row : RowSays p.2 p.1.committed
  lost : Lost h store →
    SameHolds store p.1.committed ∧ ∃ reserved, p.2 = { h with reserved := reserved }

/-- How one ends that raises: as before, on the ceilings alone, or on all but the row. -/
inductive Stopped (db : Db) (h : ReservationHandle) (store : Store) (g : Growth) :
    Failure DatabaseError Refusal → Session Store × ReservationHandle → Prop where
  | atCeilings {e : Failure DatabaseError Refusal} {s : Session Store} (hs : s.committed = store)
      (hclean : ∀ refusal, e = .raised refusal → s.At store) : Stopped db h store g e (s, h)
  | atUser {e : Failure DatabaseError Refusal} {s : Session Store}
      (he : Ended db laterKinds (SameHolds (store.addHolds h.scopedBudgetIds g.ask.held)) e s) :
      Stopped db h store g e (s, h.growCeilings g.additional g.grownTokens)
  | atRow {e : Failure DatabaseError Refusal} {s : Session Store} {w : Store}
      {delta : Option ReservationHandle}
      (hleg : LegGrew h.userId (store.addHolds h.scopedBudgetIds g.ask.held) delta w)
      (he : Fails (fun d s' => s'.committed = w ∧ db.Raises .grow d) e s) :
      Stopped db h store g e (s, h.grown g delta)

theorem ToppedUp.of_sameHolds (hok : Recorded h store) (hat : s.At w) (hw : SameHolds store w) :
    ToppedUp h store (s, h) := by
  have hcommitted := hat.1
  refine ⟨hcommitted.symm ▸ hat, ?_, ?_, fun _ => ⟨?_, h.reserved, rfl⟩⟩
  · exact hcommitted.symm ▸ .of_sameHolds rfl rfl hw
  · exact hcommitted.symm ▸ hok.row.of_active hw.active
  · exact hcommitted.symm ▸ hw

section
variable (hserver : db.Honest) (hback : db.Calm .giveBack)
include hserver hback

theorem ends_growRow (hstore : store.NonNeg) (hok : Recorded h store) (hg : g.Sound)
    {delta : Option ReservationHandle}
    (hleg : LegGrew h.userId (store.addHolds h.scopedBudgetIds g.ask.held) delta w) (hat : s.At w) :
    (growRow db g delta).Ends (s, h.grown g delta) (fun _ p => ToppedUp h store p)
      (Stopped db h store g) := by
  have hrow : (h.grown g delta).reservationId = h.reservationId := by cases delta <;> rfl
  -- the legs wrote no row, so a row is active now where it was at the start
  have hlost : ∀ id, w.isActive id = store.isActive id := by
    intro id
    have hread : ∀ s : Store, s.isActive id = s.active.any fun r => r.id = id := by
      intro s
      rw [Store.isActive, Store.active, any_filter]
      exact congrArg (List.any _) (funext fun r => Bool.and_comm _ _)
    rw [hread, hread, hleg.active]
  have hwhole : ∀ leg ∈ delta, Whole leg.estimate := by
    rintro leg rfl
    cases hleg with
    | held hestimate _ _ => exact hestimate.2
  rw [growRow, ends_bind, readHandle, ends_read, ends_bind, ends_onFst, hrow]
  refine (ends_ledgerGrow hserver hg delta hat).mono (fun grown s₁ h₁ => ?_)
    fun _ _ he => .atRow hleg he
  rw [ends_ite]
  refine ⟨fun hgrown => ?_, fun hgrown => ?_⟩
  · rw [if_pos hgrown] at h₁
    have hfollows := hleg.follows hok hg
    -- a handle without a row has nothing to grow there
    cases hid : h.reservationId with
    | none =>
      rw [hid] at h₁
      have hat₁ : s₁.At w := h₁
      rw [ends_pure]
      refine ⟨hat₁.1.symm ▸ hat₁, hat₁.1.symm ▸ hfollows, fun id hid' => ?_, ?_⟩
      · rw [hrow, hid] at hid'
        cases hid'
      · rintro ⟨id, hid', -⟩
        rw [hid] at hid'
        cases hid'
    | some id =>
      rw [hid] at h₁
      obtain ⟨hactive, hat₁⟩ := h₁
      have hgrew := rowSays_grown hok hg hwhole hid (hok.row.of_active hleg.active) hactive
      rw [ends_pure]
      refine ⟨hat₁.1.symm ▸ hat₁, ?_, hat₁.1.symm ▸ hgrew, ?_⟩
      · dsimp only
        rw [hat₁.1, Store.grown, Store.growReservation, if_pos hactive]
        exact ⟨hfollows.users, hfollows.ceilings⟩
      · rintro ⟨id', hid', hinactive⟩
        rw [hid] at hid'
        cases hid'
        rw [hlost, hinactive] at hactive
        cases hactive
  · rw [if_neg hgrown] at h₁
    obtain ⟨hat₁, id, hid, hinactive⟩ := h₁
    refine (ends_unwind hback hstore hg hleg hat₁).mono (fun _ p₂ h₂ => ?_) fun _ _ h => h
    obtain ⟨s₂, h₂'⟩ := p₂
    obtain ⟨w₂, hat₂, hsame, rfl⟩ := h₂
    refine ⟨hat₂.1.symm ▸ hat₂, hat₂.1.symm ▸ .of_sameHolds ?_ rfl hsame, ?_,
      fun _ => ⟨hat₂.1.symm ▸ hsame, _, rfl⟩⟩
    · exact hok.heldBy_reserved _
    · intro id' hid' r hr hrid
      cases hid.symm.trans hid'
      rw [hlost] at hinactive
      have hr : r ∈ store.active := by
        rw [hsame.active, ← hat₂.1]
        exact hr
      obtain ⟨hmem, hstatus⟩ := mem_filter.mp hr
      rw [Store.isActive, any_eq_false] at hinactive
      refine absurd ?_ (hinactive r hmem)
      rw [Bool.and_eq_true]
      exact ⟨decide_eq_true hrid, hstatus⟩

/-- **The counters follow the handle through `increase_reservation`.** -/
theorem ends_increaseReservation (hstore : store.NonNeg) (hok : Recorded h store) {estimate : ℚ}
    (hestimate : Whole estimate) (tokens : ℤ) (price : Option (Option Bool))
    (modelIsFree : Option Bool) (strategy : Strategy) (hat : s.At store) :
    (increaseReservation db estimate tokens price modelIsFree strategy).Ends (s, h)
      (fun _ p => ToppedUp h store p) (Stopped db h store (growthOf h estimate tokens)) := by
  have hg := growthOf_sound hok hestimate tokens
  rw [increaseReservation, ends_bind, readHandle, ends_read]
  dsimp only
  rw [ends_ite]
  refine ⟨fun _ => .of_sameHolds hok hat (.refl store), fun _ => ?_⟩
  rw [ends_ite]
  refine ⟨fun _ => .of_sameHolds hok hat (.refl store), fun _ => ?_⟩
  rw [ends_bind]
  refine (ends_growOnCeilings hserver hback hstore hok hg hat).mono (fun _ p₁ h₁ => ?_)
    fun e p₁ h₁ => ?_
  swap
  · obtain ⟨s₁, h₁'⟩ := p₁
    obtain ⟨hs, hclean, rfl⟩ := h₁
    exact .atCeilings hs hclean
  obtain ⟨s₁, h₁'⟩ := p₁
  obtain ⟨hat₁, rfl⟩ := h₁
  rw [ends_bind]
  refine (ends_growOnUser hserver hback hg price modelIsFree strategy hat₁).mono
    (fun delta p₂ h₂ => ?_) fun e p₂ h₂ => ?_
  swap
  · obtain ⟨s₂, h₂'⟩ := p₂
    obtain ⟨he, rfl⟩ := h₂
    exact .atUser he
  obtain ⟨s₂, h₂'⟩ := p₂
  obtain ⟨w, hat₂, hleg, rfl⟩ := h₂
  rw [ends_ite]
  refine ⟨fun hnothing => ?_, fun _ => ends_growRow hserver hback hstore hok hg hleg hat₂⟩
  obtain ⟨hdelta, hnone⟩ := hnothing
  rw [Option.isNone_iff_eq_none] at hdelta
  subst hdelta
  obtain ⟨hadditional, htokens⟩ := hg.zero hnone
  cases hleg with
  | nothing hw =>
    rw [Growth.ask_held, hadditional, htokens, Store.addHolds_nothing] at hw
    rw [ends_pure, ReservationHandle.withLeg, hadditional, htokens,
      ReservationHandle.growCeilings_nothing]
    exact .of_sameHolds hok hat₂ hw

omit hserver hback in
theorem Stopped.follows (hok : Recorded h store) (hg : g.Sound)
    {e : Failure DatabaseError Refusal} {p : Session Store × ReservationHandle}
    (hstopped : Stopped db h store g e p) :
    Follows h p.2 store p.1.committed ∧ store.active = p.1.committed.active := by
  cases hstopped with
  | atCeilings hs _ =>
    rw [hs]
    exact ⟨.of_sameHolds rfl rfl (.refl store), rfl⟩
  | atUser he =>
    exact ⟨(follows_addHolds hok.scopedEstimate hg).trans he.holds, he.holds.active⟩
  | atRow hleg he =>
    obtain ⟨d, -, hs, -⟩ := he
    dsimp only
    rw [hs]
    exact ⟨hleg.follows hok hg, hleg.active⟩

/-! ### `hold_tool_call` -/

/-- A refused call gives the ceilings their growth back, and raises no refusal that is an
`HTTPException`. -/
theorem ends_topUpOrGiveBack (hstore : store.NonNeg) (hok : Recorded h store) {held : ℚ}
    (hheld : Whole held) (strategy : Strategy) (hat : s.At store) :
    (topUpOrGiveBack db h held strategy).Ends (s, h) (fun refused p => ToppedUp h store p ∧
        (refused = true → p.2 = h ∧ SameHolds store p.1.committed))
      (fun e p => Stopped db h store (growthOf h (max h.estimate h.scopedEstimate + held) 0) e p ∧
        ∀ refusal, e = .raised refusal → refusal.isHttp = false) := by
  have hwhole : Whole (max h.estimate h.scopedEstimate + held) :=
    (hok.estimate.max hok.scopedEstimate).add hheld
  have hg := growthOf_sound hok hwhole 0
  have htokens : (growthOf h (max h.estimate h.scopedEstimate + held) 0).grownTokens = 0 := by
    have hzero : min (max (0 : ℤ) 0) maxCountLimit = 0 := by norm_num [maxCountLimit]
    rw [growthOf]
    dsimp only
    rw [hzero, zero_sub, max_eq_right (neg_nonpos.mpr hok.tokens), ite_self]
  -- giving back what the ceilings grew, from any point where the handle says how much that is
  have hgiven : ∀ {h' : ReservationHandle} {s' : Session Store} {w : Store} {amount : ℚ},
      h'.scopedBudgets = h.scopedBudgets → h'.scopedEstimate - h.scopedEstimate = amount →
      { h' with scopedEstimate := h.scopedEstimate } = h → s'.At w →
      SameHolds store (w.releaseHolds h.scopedBudgetIds ⟨amount, 0, 0⟩) →
      (readHandle >>= fun h' => do
        onFst (releaseUncommitted db .giveBack h'.scopedBudgetIds
          ⟨h'.scopedEstimate - h.scopedEstimate, 0, 0⟩)
        changeHandle fun h' => { h' with scopedEstimate := h.scopedEstimate }
        onFst (commit db .giveBack)
        return true : Handled Bool).Ends (s', h')
        (fun refused p => ToppedUp h store p ∧
          (refused = true → p.2 = h ∧ SameHolds store p.1.committed))
        (fun e p => Stopped db h store (growthOf h (max h.estimate h.scopedEstimate + held) 0) e
          p ∧ ∀ refusal, e = .raised refusal → refusal.isHttp = false) := by
    intro h' s' w amount hbudgets hamount hh' hat' hsame
    have hids : h'.scopedBudgetIds = h.scopedBudgetIds := by
      rw [ReservationHandle.scopedBudgetIds, hbudgets]
      rfl
    rw [ends_bind, readHandle, ends_read, ends_bind, ends_onFst, hids, hamount]
    refine (ends_releaseUncommitted hat' _ _).mono (fun _ s₁ h₁ => ?_) fun _ _ he => ?_
    swap
    · obtain ⟨d, -, -, hraises⟩ := he
      exact absurd hraises (hback.not_raises d)
    rw [ends_bind, changeHandle, ends_update, ends_bind, ends_onFst, hh']
    refine (calm_commit hback h₁).mono (fun _ s₂ h₂ => ?_) fun _ _ h => h
    rw [ends_pure]
    exact ⟨.of_sameHolds hok h₂ hsame, fun _ => ⟨rfl, h₂.1.symm ▸ hsame⟩⟩
  rw [topUpOrGiveBack, onHttpException, ends_rescue, ends_bind]
  refine (ends_increaseReservation hserver hback hstore hok hwhole 0 none (some false) strategy
    hat).mono (fun _ p₁ h₁ => ?_) fun e p₁ h₁ => ?_
  · rw [ends_pure]
    exact ⟨h₁, fun hfalse => absurd hfalse Bool.false_ne_true⟩
  · cases e with
    | database d => exact ⟨h₁, fun _ heq => by cases heq⟩
    | raised refusal =>
      dsimp only
      cases hhttp : refusal.isHttp with
      | false =>
        refine ⟨h₁, fun refusal' heq => ?_⟩
        cases heq
        exact hhttp
      | true =>
        rw [if_pos rfl]
        -- a top-up stops at the ceilings, at the user or at the row
        cases h₁ with
        | atCeilings _ hclean =>
          refine hgiven rfl (sub_self _) rfl (hclean refusal rfl) ?_
          rw [Store.releaseHolds_of_not_some]
          · exact .refl store
          · simp [HeldAmounts.Some]
        | atUser he =>
          refine hgiven rfl (add_sub_cancel_left _ _) ?_ (he.clean refusal rfl).1 ?_
          · rw [ReservationHandle.growCeilings, htokens, add_zero]
          · have hreleased := he.holds.releaseHolds h.scopedBudgetIds
              ⟨(growthOf h (max h.estimate h.scopedEstimate + held) 0).additional, 0, 0⟩
            rw [Growth.ask_held, htokens, Store.releaseHolds_addHolds hstore] at hreleased
            · exact hreleased
            · exact ⟨hg.additional.1, le_rfl, le_rfl⟩
        | atRow _ he =>
          obtain ⟨d, heq, -⟩ := he
          cases heq

theorem ends_holdToolCall (hstore : store.NonNeg) (hok : Recorded h store) {amount : ℚ}
    (hamount : Whole amount) (calls : ℕ) (strategy : Strategy) (hat : s.At store) :
    (holdToolCall db amount calls strategy).Ends (s, h) (fun held p => ToppedUp h store p ∧
        (held = none → p.2 = h ∧ SameHolds store p.1.committed))
      (fun e p => (∀ d, e = .database d → p.2 = h ∧
          ((∀ kind ∈ laterKinds, db.Calm kind) → SameHolds store p.1.committed)) ∧
        ∀ refusal, e = .raised refusal → refusal.isHttp = false ∧
          Follows h p.2 store p.1.committed ∧ store.active = p.1.committed.active) := by
  have hheld : Whole (max amount 0 * calls) := by
    obtain ⟨m, hm⟩ := hamount.max whole_zero
    refine ⟨m * calls, ?_⟩
    rw [hm, usd, usd, Int.cast_mul, Int.cast_natCast]
    ring
  have hg := growthOf_sound hok ((hok.estimate.max hok.scopedEstimate).add hheld) 0
  rw [holdToolCall, ends_bind, readHandle, ends_read]
  dsimp only
  rw [ends_rescue, ends_bind]
  refine (ends_topUpOrGiveBack hserver hback hstore hok hheld strategy hat).mono
    (fun refused p₁ h₁ => ?_) fun e p₁ h₁ => ?_
  · obtain ⟨htopped, hrefused⟩ := h₁
    rw [ends_ite]
    refine ⟨fun hr => ⟨htopped, fun _ => hrefused hr⟩, fun _ => ?_⟩
    rw [ends_bind, ends_onFst]
    refine (ends_commit hserver htopped.clean).mono (fun _ s₂ h₂ => ?_) fun _ _ he => ?_
    · rw [ends_pure]
      refine ⟨⟨?_, ?_, ?_, fun hlost => ?_⟩, fun hnone => by cases hnone⟩
      · dsimp only
        rw [h₂.1]
        exact h₂
      · dsimp only
        rw [h₂.1]
        exact htopped.follows
      · dsimp only
        rw [h₂.1]
        exact htopped.row
      · dsimp only
        rw [h₂.1]
        exact htopped.lost hlost
    · obtain ⟨d, rfl, -, hraises⟩ := he
      dsimp only
      rw [ends_bind, changeHandle, ends_update, ends_raise]
      refine ⟨fun _ _ => ⟨rfl, fun hall => ?_⟩, fun _ heq => by cases heq⟩
      exact absurd hraises ((hall .grow (by simp [laterKinds])).not_raises d)
  · cases e with
    | raised refusal =>
      refine ⟨fun _ heq => ?_, fun _ heq => ⟨h₁.2 _ heq, h₁.1.follows hok hg⟩⟩
      cases heq
    | database d =>
      dsimp only
      rw [ends_bind, changeHandle, ends_update, ends_raise]
      refine ⟨fun _ _ => ⟨rfl, fun hall => ?_⟩, fun _ heq => by cases heq⟩
      cases h₁.1 with
      | atCeilings hs _ =>
        rw [hs]
        exact .refl store
      | atUser he => exact absurd rfl (he.calm hall d)
      | atRow _ he =>
        obtain ⟨d', -, -, hraises⟩ := he
        exact absurd hraises ((hall .grow (by simp [laterKinds])).not_raises d')

end

/-- **A top-up leaves handle, row and counters consistent.**  Where `increase_reservation` returns,
the counters and the active row follow the handle, and where the row is gone, nothing is held more.
Where it raises, the counters follow the handle, which is as it was if a ceiling refused.  Where
`hold_tool_call` returns, that holds as well, and a call it refuses returns none and changes neither: it
raises no refusal that is an `HTTPException`.  A database error leaves its handle as it was, and the
counters too if it came before the ceilings had grown. -/
theorem top_up_follows (db : Db) (h : ReservationHandle) (store : Store) (hstore : store.NonNeg)
    (hserver : db.Honest) (hback : db.Calm .giveBack) (hok : Recorded h store) :
    (∀ estimate tokens price modelIsFree strategy, Whole estimate →
      (increaseReservation db estimate tokens price modelIsFree strategy).Ends (.start store, h)
        (fun _ p => ToppedUp h store p)
        fun e p => Follows h p.2 store p.1.committed ∧ store.active = p.1.committed.active ∧
          ∀ refusal, e = .raised refusal → refusal.ceiling.isSome = true →
            p.2 = h ∧ SameHolds store p.1.committed) ∧ ∀ amount calls strategy, Whole amount →
      (holdToolCall db amount calls strategy).Ends (.start store, h)
        (fun held p => ToppedUp h store p ∧ (held = none → p.2 = h ∧ SameHolds store p.1.committed))
        fun e p => (∀ d, e = .database d → p.2 = h ∧
            ((∀ kind ∈ laterKinds, db.Calm kind) → SameHolds store p.1.committed)) ∧
          ∀ refusal, e = .raised refusal → refusal.isHttp = false ∧
            Follows h p.2 store p.1.committed ∧ store.active = p.1.committed.active := by
  refine ⟨fun estimate tokens price modelIsFree strategy hestimate => ?_,
    fun amount calls strategy hamount =>
      ends_holdToolCall hserver hback hstore hok hamount calls strategy (Session.at_start store)⟩
  refine (ends_increaseReservation hserver hback hstore hok hestimate tokens price modelIsFree
    strategy (Session.at_start store)).mono (fun _ _ h => h) fun e p hstopped => ?_
  obtain ⟨hfollows, hactive⟩ := hstopped.follows hok (growthOf_sound hok hestimate tokens)
  refine ⟨hfollows, hactive, fun refusal heq hceiling => ?_⟩
  subst heq
  cases hstopped with
  | atCeilings hs _ =>
    rw [hs]
    exact ⟨rfl, .refl store⟩
  | atUser he =>
    rw [(he.clean refusal rfl).2] at hceiling
    cases hceiling
  | atRow _ he =>
    obtain ⟨d, heq, -⟩ := he
    cases heq

/-! ### Runs -/

/-- Half a dollar held on a user and on the ceiling of their key. -/
def halfDollar : ReservationHandle where
  userId := 0
  estimate := 1 / 2
  reserved := true
  strategy := .forUpdate
  scopedBudgets := [toApplicableBudget (keyCeiling 7 none)]
  scopedEstimate := 1 / 2
  reservationId := some 3
  reservationTtlSec := defaultReservationTtlSec
  scopeCeilings := [keyCeiling 7 none]

/-- A user with a budget of a dollar, a ceiling of ten, and the row of half a dollar. -/
def halfDollarStore (reserved : ℤ) (status : Status) : Store :=
  { oneDollar reserved [⟨3, 0, true, ⟨500000, 0, 0⟩, status, 500, [(7, ⟨500000, 0, 0⟩)]⟩] with
    ceilings id :=
      if id = 7 then some ⟨.apiToken, none, 1, ⟨0, reserved, 0, 0, 0, 0⟩, none, none⟩ else none }

theorem halfDollarStore_nonNeg {reserved : ℤ} (hreserved : 0 ≤ reserved) (status : Status) :
    (halfDollarStore reserved status).NonNeg := by
  refine ⟨(oneDollar_nonNeg hreserved []).users, fun id c hc => ?_⟩
  dsimp only [halfDollarStore] at hc
  split_ifs at hc
  cases hc
  exact ⟨hreserved, le_rfl, le_rfl⟩

theorem recorded_halfDollar (reserved : ℤ) (status : Status) :
    Recorded halfDollar (halfDollarStore reserved status) := by
  have hhalf : Whole (1 / 2) := ⟨500000, by decide +kernel⟩
  have hbind : bindUsd halfDollar.estimate = 500000 := by decide +kernel
  have hheld : halfDollar.ceilingHeld.bind = ⟨500000, 0, 0⟩ := by decide +kernel
  refine ⟨nodup_singleton 7, hhalf, hhalf, le_rfl, fun hidle => (by cases hidle),
    fun id _ r hr _ => ?_⟩
  obtain ⟨hr, -⟩ := mem_filter.mp hr
  rw [mem_singleton.mp hr, hbind, hheld]
  exact ⟨rfl, rfl, .refl _⟩

/-- A call of a quarter fits.  One of three quarters fits the ceiling and not the user, and nothing
is held of it. -/
theorem top_up_follows_run : ((holdToolCall (answering fun _ _ => .done) (1 / 4) 1 .forUpdate
      (.start (halfDollarStore 500000 .active), halfDollar)).1.toOption = some (some (1 / 4)) ∧
    (holdToolCall (answering fun _ _ => .done) (3 / 4) 1 .forUpdate
      (.start (halfDollarStore 500000 .active), halfDollar)).1.toOption = some none) ∧
    (∀ estimate tokens price modelIsFree strategy, Whole estimate →
      (increaseReservation (answering fun _ _ => .done) estimate tokens price modelIsFree
        strategy).Ends (.start (halfDollarStore 500000 .active), halfDollar)
        (fun _ p => ToppedUp halfDollar (halfDollarStore 500000 .active) p)
        fun e p => Follows halfDollar p.2 (halfDollarStore 500000 .active) p.1.committed ∧
          (halfDollarStore 500000 .active).active = p.1.committed.active ∧
          ∀ refusal, e = .raised refusal → refusal.ceiling.isSome = true →
            p.2 = halfDollar ∧ SameHolds (halfDollarStore 500000 .active) p.1.committed) ∧
    ∀ amount calls strategy, Whole amount →
      (holdToolCall (answering fun _ _ => .done) amount calls strategy).Ends
        (.start (halfDollarStore 500000 .active), halfDollar)
        (fun held p => ToppedUp halfDollar (halfDollarStore 500000 .active) p ∧ (held = none →
            p.2 = halfDollar ∧ SameHolds (halfDollarStore 500000 .active) p.1.committed))
        fun e p => (∀ d, e = .database d → p.2 = halfDollar ∧
            ((∀ kind ∈ laterKinds, (answering fun _ _ => .done).Calm kind) →
              SameHolds (halfDollarStore 500000 .active) p.1.committed)) ∧
          ∀ refusal, e = .raised refusal → refusal.isHttp = false ∧
            Follows halfDollar p.2 (halfDollarStore 500000 .active) p.1.committed ∧
            (halfDollarStore 500000 .active).active = p.1.committed.active :=
  ⟨⟨by decide +kernel, by decide +kernel⟩,
    top_up_follows _ _ _ (halfDollarStore_nonNeg (by norm_num) _) (by intro l n e h; cases h)
      (fun _ => rfl) (recorded_halfDollar _ _)⟩

/-- **A top-up may leave the handle and a counter apart**: on a row that was reclaimed, with an
amount finer than a micro-dollar, and where the user's hold fails after the ceiling's growth was
committed. -/
theorem top_up_leaves :
    (∃ db h store, (∀ l, db.Calm l) ∧ store.NonNeg ∧ Recorded h store ∧ Lost h store ∧
      (increaseReservation db 1 0 none none .forUpdate (.start store, h)).1.isOk = true ∧
      ((increaseReservation db 1 0 none none .forUpdate (.start store, h)).2.1.committed.ceilings
        7).map (fun c => usd c.usage.reserved) ≠ some
        (increaseReservation db 1 0 none none .forUpdate (.start store, h)).2.2.scopedEstimate) ∧
    (∃ db h store amount, (∀ l, db.Calm l) ∧ store.NonNeg ∧ Recorded h store ∧ ¬ Lost h store ∧
      (holdToolCall db amount 1 .forUpdate (.start store, h)).1.isOk = true ∧
      ((holdToolCall db amount 1 .forUpdate (.start store, h)).2.1.committed.ceilings 7).map
        (fun c => usd c.usage.reserved) ≠ some
        (holdToolCall db amount 1 .forUpdate (.start store, h)).2.2.scopedEstimate) ∧
    ∃ db h store amount, db.Honest ∧ db.Calm .giveBack ∧ store.NonNeg ∧ Recorded h store ∧
      ¬ Lost h store ∧ Whole amount ∧
      (holdToolCall db amount 1 .forUpdate (.start store, h)).1.isOk = false ∧
      ((holdToolCall db amount 1 .forUpdate (.start store, h)).2.1.committed.ceilings 7).map
        (fun c => usd c.usage.reserved) ≠ some
        (holdToolCall db amount 1 .forUpdate (.start store, h)).2.2.scopedEstimate := by
  have hactive : ¬ Lost halfDollar (halfDollarStore 500000 .active) := by
    rintro ⟨id, hid, hinactive⟩
    cases hid
    cases hinactive
  refine ⟨⟨answering fun _ _ => .done, halfDollar, halfDollarStore 0 .expired, fun _ _ => rfl,
    halfDollarStore_nonNeg le_rfl _, recorded_halfDollar _ _, ⟨3, rfl, rfl⟩, by decide +kernel,
    by decide +kernel⟩,
    ⟨answering fun _ _ => .done, halfDollar, halfDollarStore 500000 .active, 4 / 10 ^ 7,
    fun _ _ => rfl, halfDollarStore_nonNeg (by norm_num) _, recorded_halfDollar _ _, hactive,
    by decide +kernel, by decide +kernel⟩,
    answering fun l _ => if l = .userHold then .failed .sqlAlchemy else .done, halfDollar,
    halfDollarStore 500000 .active, 1 / 4, fun l n e => ?_, fun _ => rfl,
    halfDollarStore_nonNeg (by norm_num) _, recorded_halfDollar _ _, hactive,
    ⟨250000, by decide +kernel⟩, by decide +kernel, by decide +kernel⟩
  dsimp only [answering]
  split_ifs <;> intro h <;> cases h

end Otari.Reservations

import Otari.Reservations.Reserve

/-!
# Reservations — GivesBack — what was taken is given back

A release after a hold leaves a counter as it was (`Usage.release_hold`), as long as no counter
is negative.  So every ceiling takes its hold or none keeps one (`ends_reserveFrom`), and a request
that takes no reservation keeps no hold: whichever gate refuses it, or statement fails
(`takeHolds_restores`).

The compensation is as good as the database that runs it: the results are under one that reports no
failure of a commit that landed (`Honest`) and does what gives a hold back (`Calm .giveBack`).
-/

namespace Otari.Reservations
open Transactions Raising Raising.Program

/-! ### Counters that are never negative -/

def HeldAmounts.NonNeg (h : HeldAmounts) : Prop := 0 ≤ h.amount ∧ 0 ≤ h.tokens ∧ 0 ≤ h.requests

def Usage.NonNeg (u : Usage) : Prop :=
  0 ≤ u.reserved ∧ 0 ≤ u.reservedTokens ∧ 0 ≤ u.reservedRequests

/-- No counter holds less than nothing. -/
structure Store.NonNeg (s : Store) : Prop where
  users : ∀ id user, s.users id = some user → user.usage.NonNeg
  ceilings : ∀ id ceiling, s.ceilings id = some ceiling → ceiling.usage.NonNeg

theorem bindUsd_zero : bindUsd 0 = 0 := by norm_num [bindUsd, Rounding.halfUp]

theorem clampedSub_add {column amount : ℤ} (h : 0 ≤ column) :
    clampedSub (column + amount) amount = column := by
  rw [clampedSub, add_sub_cancel_right, if_neg (not_lt.mpr h)]

theorem clampedSub_nonneg (column amount : ℤ) : 0 ≤ clampedSub column amount := by
  rw [clampedSub]
  split_ifs with h
  · exact le_rfl
  · exact not_lt.mp h

variable {h : HeldAmounts}

/-- **What a hold adds, a release takes away.** -/
theorem Usage.release_hold {u : Usage} (hu : u.NonNeg) (hh : h.NonNeg) :
    (u.hold h).release h = u := by
  obtain ⟨hu₁, hu₂, hu₃⟩ := hu
  obtain ⟨hh₁, hh₂, hh₃⟩ := hh
  have hdollars : (if 0 < h.amount then
      clampedSub (u.reserved + bindUsd h.amount) (bindUsd h.amount)
      else u.reserved + bindUsd h.amount) = u.reserved := by
    split_ifs with hpos
    · exact clampedSub_add hu₁
    · rw [le_antisymm (not_lt.mp hpos) hh₁, bindUsd_zero, add_zero]
  have hcount : ∀ column amount : ℤ, 0 ≤ column → 0 ≤ amount →
      (if 0 < amount then clampedSub (column + amount) amount else column + amount) = column := by
    intro column amount hcolumn hamount
    split_ifs with hpos
    · exact clampedSub_add hcolumn
    · rw [le_antisymm (not_lt.mp hpos) hamount, add_zero]
  simp only [Usage.release, Usage.hold, hdollars, hcount _ _ hu₂ hh₂, hcount _ _ hu₃ hh₃]

theorem Usage.NonNeg.release {u : Usage} (hu : u.NonNeg) (h : HeldAmounts) :
    (u.release h).NonNeg := by
  have hclamped : ∀ (p : Prop) [Decidable p] (column amount : ℤ), 0 ≤ column →
      0 ≤ if p then clampedSub column amount else column := by
    intro p _ column amount hcolumn
    split_ifs
    · exact clampedSub_nonneg column amount
    · exact hcolumn
  exact ⟨hclamped _ _ _ hu.1, hclamped _ _ _ hu.2.1, hclamped _ _ _ hu.2.2⟩

/-! ### Statements on the store -/

/-- What taking a hold on these ceilings leaves. -/
def Store.addHolds (s : Store) (ids : List ℕ) (h : HeldAmounts) : Store :=
  s.updateCeilings ids fun c => { c with usage := c.usage.hold h }

@[simp] theorem Store.updateCeilings_nil (s : Store) (f : ScopedBudget → ScopedBudget) :
    s.updateCeilings [] f = s := by
  simp [Store.updateCeilings]

variable {ids : List ℕ}

theorem Store.updateCeilings_self {s : Store} {f : ScopedBudget → ScopedBudget}
    (h : ∀ id ∈ ids, ∀ c, s.ceilings id = some c → f c = c) : s.updateCeilings ids f = s := by
  have hceilings : (fun id => if id ∈ ids then (s.ceilings id).map f else s.ceilings id) =
      s.ceilings := by
    funext id
    split_ifs with hid
    · cases hc : s.ceilings id with
      | none => rfl
      | some c => rw [Option.map_some, h id hid c hc]
    · rfl
  rw [Store.updateCeilings, hceilings]

theorem Store.releaseHolds_of_not_some {s : Store}
    (hh : ¬ (ids ≠ [] ∧ h.Some)) : s.releaseHolds ids h = s := by
  rw [not_and_or, not_not] at hh
  rcases hh with rfl | hh
  · exact s.updateCeilings_nil _
  · simp only [HeldAmounts.Some, not_or] at hh
    refine s.updateCeilings_self fun id _ c _ => ?_
    simp [Usage.release, hh.1, hh.2.1, hh.2.2]

/-- **Giving back what was taken restores the ceilings.** -/
theorem Store.releaseHolds_addHolds {s : Store} (hs : s.NonNeg)
    (hh : h.NonNeg) : (s.addHolds ids h).releaseHolds ids h = s := by
  have hceilings : ((s.addHolds ids h).releaseHolds ids h).ceilings = s.ceilings := by
    funext id
    by_cases hid : id ∈ ids
    · cases hc : s.ceilings id with
      | none => simp [addHolds, releaseHolds, updateCeilings, hid, hc]
      | some c =>
        simp [addHolds, releaseHolds, updateCeilings, hid, hc,
          Usage.release_hold (hs.ceilings id c hc) hh]
    · simp [addHolds, releaseHolds, updateCeilings, hid]
  exact congrArg (fun ceilings => { s with ceilings }) hceilings

theorem Store.addHolds_append {s : Store} {taken : List ℕ} {id : ℕ}
    (hid : id ∉ taken) : s.addHolds (taken ++ [id]) h = (s.addHolds taken h).addHolds [id] h := by
  have hceilings : (s.addHolds (taken ++ [id]) h).ceilings =
      ((s.addHolds taken h).addHolds [id] h).ceilings := by
    funext id'
    by_cases heq : id' = id
    · subst heq
      simp [addHolds, updateCeilings, hid]
    · simp [addHolds, updateCeilings, heq]
  exact congrArg (fun ceilings => { s with ceilings }) hceilings

theorem Store.holdCeiling_cases (s : Store) (id : ℕ) (ask : Ask) :
    s.holdCeiling id ask = (true, s.addHolds [id] ask.held) ∨
      s.holdCeiling id ask = (false, s) := by
  rw [Store.holdCeiling]
  split
  · split_ifs
    · exact .inl rfl
    · exact .inr rfl
  · exact .inr rfl

theorem Store.reservation?_freshId (s : Store) : s.reservation? s.freshId = none := by
  refine List.find?_eq_none.mpr fun r hr => ?_
  have hle : ∀ (l : List Reservation), r ∈ l → r.id ≤ (l.map Reservation.id).foldr max 0 := by
    intro l hmem
    induction l with
    | nil => cases hmem
    | cons a l ih =>
      rcases List.mem_cons.mp hmem with rfl | hmem
      · exact le_max_left _ _
      · exact (ih hmem).trans (le_max_right _ _)
  intro heq
  have hid : r.id = _ + 1 := of_decide_eq_true heq
  have hmax := hle _ hr
  omega

theorem Store.holdUser_cases (s : Store) (userId : ℕ) (guards : Usage → List (Axis × Truth))
    (h : HeldAmounts) : s.holdUser userId guards h =
      (true, s.updateUser userId fun user => { user with usage := user.usage.hold h }) ∨
    s.holdUser userId guards h = (false, s) := by
  rw [Store.holdUser]
  split
  · split_ifs
    · exact .inl rfl
    · exact .inr rfl
  · exact .inr rfl

/-! ### What is compared -/

def Store.active (s : Store) : List Reservation := s.reservations.filter (·.status = .active)

/-- Every counter of what is held, and every active row of the ledger, is the same. -/
structure SameHolds (s t : Store) : Prop where
  users : ∀ id, (s.users id).map (·.usage.held) = (t.users id).map (·.usage.held)
  ceilings : ∀ id, (s.ceilings id).map (·.usage.held) = (t.ceilings id).map (·.usage.held)
  active : s.active = t.active

theorem SameHolds.refl (s : Store) : SameHolds s s := ⟨fun _ => rfl, fun _ => rfl, rfl⟩

theorem SameHolds.trans {s t u : Store} (h : SameHolds s t) (h' : SameHolds t u) : SameHolds s u :=
  ⟨fun id => (h.users id).trans (h'.users id), fun id => (h.ceilings id).trans (h'.ceilings id),
    h.active.trans h'.active⟩

theorem SameHolds.addReservation (s : Store) {r : Reservation} (hr : r.status ≠ .active) :
    SameHolds s (s.addReservation r) := by
  refine ⟨fun _ => rfl, fun _ => rfl, ?_⟩
  rw [Store.active, Store.active, Store.addReservation, List.filter_append]
  simp [hr]

/-! ### Giving back -/

variable {db : Db} {s : Session Store} {c base : Store}

/-- A database error, after which `P` is committed. -/
def FailsWith (P : Store → Prop) : Failure DatabaseError Refusal → Session Store → Prop :=
  fun _ s => P s.committed

theorem failsWith_of_fails {P : Store → Prop} {Q : DatabaseError → Session Store → Prop}
    {e : Failure DatabaseError Refusal} (h : Fails Q e s) (hQ : ∀ d, Q d s → P s.committed) :
    FailsWith P e s := by
  obtain ⟨d, -, hd⟩ := h
  exact hQ d hd

theorem ends_releaseUncommitted {w : Store} {kind : Kind} (h : s.Open c w) (ids : List ℕ)
    (held : HeldAmounts) :
    (releaseUncommitted db kind ids held).Ends s (fun _ s' => s'.Open c (w.releaseHolds ids held))
      (Fails fun d s' => s'.committed = c ∧ db.Raises kind d) := by
  rw [releaseUncommitted]
  split_ifs with hsome
  · exact ends_execute h _
  · rw [ends_pure, Store.releaseHolds_of_not_some hsome]
    exact h

section
variable (hback : db.Calm .giveBack) {E : Failure DatabaseError Refusal → Session Store → Prop}
include hback

theorem calm_release (h : s.At c) (ids : List ℕ) (held : HeldAmounts) :
    (release db .giveBack ids held).Ends s (fun _ s' => s'.At (c.releaseHolds ids held)) E := by
  rw [release]
  split_ifs with hsome
  · simp only [ends_bind]
    refine (calm_execute hback h id).mono (fun _ s₁ h₁ => ?_) fun _ _ h => h
    refine (calm_execute hback h₁ _).mono (fun _ s₂ h₂ => ?_) fun _ _ h => h
    exact calm_commit hback h₂
  · rw [ends_pure, Store.releaseHolds_of_not_some hsome]
    exact h

/-- **Giving back what was taken**, from what is committed. -/
theorem calm_giveBack (hs : base.NonNeg) {ids : List ℕ} {held : HeldAmounts} (hh : held.NonNeg)
    (h : s.At (base.addHolds ids held)) :
    (release db .giveBack ids held).Ends s (fun _ s' => s'.At base) E := by
  refine (calm_release hback h ids held).mono (fun _ s' h' => ?_) fun _ _ h => h
  rwa [Store.releaseHolds_addHolds hs hh] at h'

theorem calm_compensate (hs : base.NonNeg) {ids : List ℕ} {held : HeldAmounts} (hh : held.NonNeg)
    (h : s.committed = base.addHolds ids held) :
    (suppress do
      rollback db .giveBack
      release db .giveBack ids held).Ends s (fun _ s' => s'.At base) E := by
  refine ends_suppress ?_
  rw [ends_bind]
  refine (calm_rollback hback).mono (fun _ s₁ h₁ => ?_) fun _ _ h => h
  rw [h] at h₁
  exact calm_giveBack hback hs hh h₁

end

/-! ### The ceilings -/

section
variable (hserver : db.Honest) (hback : db.Calm .giveBack)

include hserver in
theorem ends_holdOn (h : s.At c) (ask : Ask) (ceilingId : ℕ) : (holdOn db ask ceilingId).Ends s
      (fun held s' => s'.At (if held then c.addHolds [ceilingId] ask.held else c))
      (Fails fun _ s' => s'.committed = c) := by
  rw [holdOn, ends_bind]
  refine (ends_execute h id).mono (fun _ s₁ h₁ => ?_) fun _ _ h => h.mono fun _ hd => hd.1
  rw [ends_bind]
  refine (ends_statement h₁ _).mono (fun held s₂ h₂ => ?_) fun _ _ h => h.mono fun _ hd => hd.1
  rw [ends_bind]
  refine (ends_commit hserver h₂.2).mono (fun _ s₃ h₃ => ?_) fun _ _ h => h.mono fun _ hd => hd.1.1
  rw [ends_pure, h₂.1]
  rcases c.holdCeiling_cases ceilingId ask with hheld | hheld
  · simpa [hheld] using h₃
  · simpa [hheld] using h₃

include hserver hback in
/-- **Every ceiling takes its hold, or none keeps one.** -/
theorem ends_reserveFrom (hbase : base.NonNeg) {ask : Ask} (hask : ask.held.NonNeg)
    (budgets : List ApplicableBudget) (taken : List ℕ)
    (hnodup : (taken ++ budgets.map ApplicableBudget.id).Nodup)
    (h : s.At (base.addHolds taken ask.held)) : (reserveFrom db ask taken budgets).Ends s
      (fun refused s' => s'.At (if refused.isSome then base
        else base.addHolds (taken ++ budgets.map ApplicableBudget.id) ask.held))
      (Fails fun _ s' => s'.committed = base) := by
  induction budgets generalizing s taken with
  | nil =>
    rw [reserveFrom, ends_pure]
    simpa using h
  | cons budget rest ih =>
    have hfresh : budget.id ∉ taken := by
      intro hmem
      rw [List.nodup_append] at hnodup
      exact hnodup.2.2 _ hmem _ List.mem_cons_self rfl
    rw [reserveFrom, ends_bind]
    refine ends_onDatabaseError ((ends_holdOn hserver h ask budget.id).mono
      (fun held s₁ h₁ => ?_) fun _ _ h => h) fun d s₁ h₁ => ?_
    · rw [ends_ite]
      refine ⟨fun hheld => ?_, fun hheld => ?_⟩
      · rw [if_pos hheld, ← Store.addHolds_append hfresh] at h₁
        have hrest := ih (taken ++ [budget.id]) (by simpa using hnodup) h₁
        simpa using hrest
      · rw [if_neg hheld] at h₁
        rw [ends_bind]
        refine (calm_giveBack hback hbase hask h₁).mono (fun _ s₂ h₂ => ?_) fun _ _ h => h
        rw [ends_pure]
        exact h₂
    · rw [ends_bind]
      refine (calm_compensate hback hbase hask h₁).mono (fun _ s₂ h₂ => ?_) fun _ _ h => h
      rw [ends_raise]
      exact ⟨d, rfl, h₂.1⟩

/-! ### The user's row, and the ledger's -/

include hback in
theorem ends_holdOnUser (hbase : base.NonNeg) {budgets : List ApplicableBudget}
    {held : HeldAmounts} (hheld : held.NonNeg) (userId : ℕ) (guards : Usage → List (Axis × Truth))
    (h : s.At (base.addHolds (budgets.map ApplicableBudget.id) held)) :
    (holdOnUser db userId guards budgets held).Ends s
      (fun matched s' => ∃ w, w.reservations = base.reservations ∧
        s'.Open (base.addHolds (budgets.map ApplicableBudget.id) held) w ∧
        (matched = false → w = base.addHolds (budgets.map ApplicableBudget.id) held))
      (FailsWith (· = base)) := by
  refine ends_onDatabaseError
    (P := fun s' => s'.committed = base.addHolds (budgets.map ApplicableBudget.id) held)
    ?_ fun d s₁ h₁ => ?_
  · rw [ends_bind]
    refine (ends_execute h id).mono (fun _ s₁ h₁ => ?_) fun _ _ h => h.mono fun _ hd => hd.1
    refine (ends_statement h₁ _).mono (fun matched s₂ h₂ => ?_) fun _ _ h => h.mono fun _ hd => hd.1
    refine ⟨_, ?_, h₂.2, fun hmatched => ?_⟩
    · rcases Store.holdUser_cases _ userId guards held with hcase | hcase <;> rw [id, hcase] <;> rfl
    · rw [h₂.1] at hmatched
      rcases Store.holdUser_cases (base.addHolds (budgets.map ApplicableBudget.id) held) userId
        guards held with hcase | hcase
      · rw [id, hcase] at hmatched
        cases hmatched
      · rw [id, hcase]
  · rw [ends_bind]
    refine (calm_compensate hback hbase hheld h₁).mono (fun _ s₂ h₂ => ?_) fun _ _ h => h
    rw [ends_raise]
    exact h₂.1

theorem ends_record (t : Taken) {w : Store} (h : s.Open c w) : (t.record db).Ends s
      (fun row s' => (∃ w, s'.Open c w) ∧ (∀ i ∈ row, i = w.freshId) ∧
        (row = none → t.scopedBudgets = []))
      (Fails fun d s' => s'.committed = c ∧ db.Raises .record d) := by
  rw [Taken.record, record]
  by_cases hnone : t.userReserved = false ∧ t.scopedBudgets = []
  · rw [if_pos hnone, ends_pure]
    exact ⟨⟨w, h⟩, fun i hi => absurd hi (Option.not_mem_none i), fun _ => hnone.2⟩
  · rw [if_neg hnone, ends_bind, ends_now, ends_bind]
    refine (ends_statement h _).mono (fun row s₁ h₁ => ?_) fun _ _ h => h
    rw [ends_pure]
    refine ⟨⟨_, h₁.2⟩, fun i hi => ?_, fun hi => by cases hi⟩
    cases hi
    exact h₁.1

include hback in
theorem calm_releaseUnrecorded (hbase : base.NonNeg) {E : Failure DatabaseError Refusal →
    Session Store → Prop} {ids : List ℕ} {held : HeldAmounts} (hheld : held.NonNeg) {row : ℕ}
    (userId : ℕ) (hrow : base.reservation? row = none) (h : s.At (base.addHolds ids held)) :
    (releaseUnrecorded db row userId ids held).Ends s
      (fun _ s' => ∃ r : Reservation, r.status ≠ .active ∧ s'.At (base.addReservation r)) E := by
  rw [releaseUnrecorded, ends_bind]
  refine (calm_execute hback h id).mono (fun _ s₁ h₁ => ?_) fun _ _ h => h
  rw [ends_bind, ends_now, ends_bind]
  refine (calm_statement hback h₁ _).mono (fun inserted s₂ h₂ => ?_) fun _ _ h => h
  have habsent : ((id (base.addHolds ids held)).reservation? row).isSome = false := by
    rw [show (id (base.addHolds ids held)).reservation? row = base.reservation? row from rfl, hrow]
    rfl
  simp only [habsent, Bool.false_eq_true, if_false] at h₂
  obtain ⟨rfl, h₂⟩ := h₂
  rw [if_pos rfl, ends_bind]
  refine (ends_releaseUncommitted h₂ ids held).mono (fun _ s₃ h₃ => ?_)
    fun _ _ h => h.elim hback
  rw [ends_bind]
  refine (calm_commit hback h₃).mono (fun _ s₄ h₄ => ?_) fun _ _ h => h
  rw [ends_pure]
  refine ⟨⟨row, userId, false, ⟨0, 0, 0⟩, .released, db.clock s₁.asked, []⟩, by simp, ?_⟩
  have hfence : (base.addReservation
      ⟨row, userId, false, ⟨0, 0, 0⟩, .released, db.clock s₁.asked, []⟩).NonNeg :=
    ⟨hbase.users, hbase.ceilings⟩
  have hback' : ((base.addReservation _).addHolds ids held).releaseHolds ids held = _ :=
    Store.releaseHolds_addHolds hfence hheld
  rw [← hback']
  exact h₄

include hserver hback in
/-- **A handle, or nothing kept**: where the user's hold and its row do not land, the ceilings have
theirs back.  A request that writes no row holds on no ceiling. -/
theorem ends_heldHandleUncommitted (hbase : base.NonNeg) (t : Taken) (hheld : t.ceilingHeld.NonNeg)
    {recordReservation : Bool} (hrecord : recordReservation = false → t.scopedBudgets = [])
    {w : Store} (hw : w.reservations = base.reservations)
    (h : s.Open (base.addHolds t.scopedIds t.ceilingHeld) w) :
    (heldHandleUncommitted db t recordReservation).Ends s (fun _ _ => True)
      (FailsWith (SameHolds base)) := by
  have hunscoped : t.scopedBudgets = [] → base.addHolds t.scopedIds t.ceilingHeld = base := by
    intro hnone
    rw [Taken.scopedIds, hnone]
    exact base.updateCeilings_nil _
  rw [heldHandleUncommitted, ends_bind]
  refine (ends_onDatabaseError
    (P := fun s' => s'.committed = base.addHolds t.scopedIds t.ceilingHeld)
    (Q := fun row s' => (∃ w, s'.Open (base.addHolds t.scopedIds t.ceilingHeld) w) ∧
      (∀ i ∈ row, base.reservation? i = none) ∧ (row = none → t.scopedBudgets = []))
    (E := FailsWith (SameHolds base)) ?_ fun d s₁ h₁ => ?_).mono (fun row s₁ h₁ => ?_)
    fun _ _ h => h
  · rw [ends_ite]
    refine ⟨fun _ => (ends_record t h).mono (fun row s' hs' => ⟨hs'.1, fun i hi => ?_, hs'.2.2⟩)
      fun _ _ h => h.mono fun _ hd => hd.1, fun hfalse => ?_⟩
    · rw [hs'.2.1 i hi, Store.reservation?, ← hw]
      exact w.reservation?_freshId
    · rw [ends_pure]
      exact ⟨⟨w, h⟩, fun i hi => absurd hi (Option.not_mem_none i),
        fun _ => hrecord (Bool.eq_false_of_not_eq_true hfalse)⟩
  · rw [ends_bind]
    refine (ends_suppress (calm_rollback hback)).mono (fun _ s₂ h₂ => ?_) fun _ _ h => h
    rw [h₁] at h₂
    rw [ends_bind]
    refine (calm_giveBack hback hbase hheld h₂).mono (fun _ s₃ h₃ => ?_) fun _ _ h => h
    rw [ends_raise, FailsWith, h₃.1]
    exact .refl _
  · obtain ⟨⟨w₁, hopen⟩, hfresh, hnone⟩ := h₁
    rw [ends_bind]
    refine (ends_onDatabaseError (P := fun s' => s'.At (base.addHolds t.scopedIds t.ceilingHeld))
      (Q := fun _ _ => True) (E := FailsWith (SameHolds base))
      ((ends_commit hserver hopen).mono (fun _ _ _ => trivial) fun _ _ h => h.mono fun _ hd => hd.1)
      fun d s₂ h₂ => ?_).mono (fun _ _ _ => trivial) fun _ _ h => h
    rw [ends_bind]
    refine (ends_suppress (calm_rollback hback)).mono (fun _ s₃ h₃ => ?_) fun _ _ h => h
    rw [h₂.1] at h₃
    rw [ends_bind]
    -- the handler finds the row by the id it was given, which no row had before
    have hgiven : (t.giveBackUnrecorded db row).Ends s₃
        (fun _ s' => SameHolds base s'.committed) (FailsWith (SameHolds base)) := by
      by_cases hscoped : t.scopedBudgets = []
      · rw [hunscoped hscoped] at h₃
        have hsame : SameHolds base s₃.committed := by
          rw [h₃.1]
          exact .refl _
        cases row with
        | none => exact hsame
        | some row =>
          rw [Taken.giveBackUnrecorded, if_neg (not_not.mpr hscoped)]
          exact hsame
      · cases row with
        | none => exact absurd (hnone rfl) hscoped
        | some row =>
          rw [Taken.giveBackUnrecorded, if_pos hscoped]
          refine ends_onDatabaseError (P := fun _ => False) ?_ fun _ _ h => h.elim
          rw [ends_bind]
          refine (calm_releaseUnrecorded hback hbase hheld t.userId (hfresh row rfl) h₃).mono
            (fun _ s₄ h₄ => ?_) fun _ _ h => h
          obtain ⟨r, hr, hat⟩ := h₄
          rw [ends_pure, hat.1]
          exact .addReservation base hr
    refine hgiven.mono (fun _ s₄ h₄ => ?_) fun _ _ h => h
    rw [ends_raise]
    exact h₄

/-- The database raises a `TimeoutError` at no statement of this kind. -/
def NoTimeout (db : Db) (kind : Kind) : Prop := ¬ db.Raises kind .timeout

theorem ends_onSqlAlchemyError {α : Type} {x handler : Call α} {Q : α → Session Store → Prop}
    {E : Failure DatabaseError Refusal → Session Store → Prop}
    {P : DatabaseError → Session Store → Prop} (hx : x.Ends s Q (Fails P))
    (hhandler : ∀ s', P .sqlAlchemy s' → handler.Ends s' Q E)
    (htimeout : ∀ s', P .timeout s' → E (.database .timeout) s') :
    (onSqlAlchemyError x handler).Ends s Q E := by
  rw [onSqlAlchemyError, ends_rescue]
  refine hx.mono (fun _ _ h => h) fun e s' he => ?_
  obtain ⟨d, rfl, hs'⟩ := he
  cases d with
  | sqlAlchemy => exact hhandler s' hs'
  | timeout => exact htimeout s' hs'

include hserver in
theorem ends_heldHandleCommitted (htimeout : NoTimeout db .record) (t : Taken)
    (recordReservation : Bool) (h : s.At c) :
    (heldHandleCommitted db t recordReservation).Ends s (fun _ _ => True) fun _ _ => False := by
  rw [heldHandleCommitted, ends_bind, ends_ite]
  refine ⟨fun _ => ?_, fun _ => trivial⟩
  refine ends_onSqlAlchemyError (P := fun d _ => db.Raises .record d) ?_ (fun s₁ _ => ?_)
    fun _ hd => absurd hd htimeout
  · rw [Taken.recordCommitted, ends_bind]
    refine (ends_record t h).mono (fun row s₁ h₁ => ?_) fun _ _ he => he.mono fun _ hd => hd.2
    obtain ⟨⟨w, hopen⟩, -⟩ := h₁
    rw [ends_bind, ends_ite]
    exact ⟨fun _ => (ends_commit hserver hopen).mono (fun _ _ _ => trivial)
      fun _ _ he => he.mono fun _ hd => hd.2, fun _ => trivial⟩
  · rw [leaveUnrecorded, ends_bind]
    exact ends_onSqlAlchemyError (P := fun d _ => db.Raises .record d)
      (ends_rollback.mono (fun _ _ _ => trivial) fun _ _ he => he.mono fun _ hd => hd.2)
      (fun _ _ => trivial) fun _ hd => absurd hd htimeout

/-! ### What a request takes -/

include hback in
theorem ends_refuseUser (hbase : base.NonNeg) (r : Request) (budget : Budget) {ask : Ask}
    (hask : ask.held.NonNeg) (budgets : List ApplicableBudget)
    (h : s.At (base.addHolds (budgets.map ApplicableBudget.id) ask.held)) :
    (refuseUser db r budget ask budgets).Ends s (fun _ _ => True) (FailsWith (· = base)) := by
  rw [refuseUser, ends_bind]
  refine (calm_commit hback h).mono (fun _ s₁ h₁ => ?_) fun _ _ h => h
  rw [ends_bind]
  refine (calm_giveBack hback hbase hask h₁).mono (fun _ s₂ h₂ => ?_) fun _ _ h => h
  rw [ends_bind]
  refine (ends_query h₂ _).mono (fun _ s₃ h₃ => ?_) fun _ _ he => ?_
  · dsimp only
    rw [ends_raise]
    exact h₃.2.1
  · obtain ⟨d, rfl, hc, -⟩ := he
    exact hc

include hserver hback in
/-- **A request that takes no reservation keeps no hold**: whichever gate refuses it, or statement
fails. -/
theorem takeHolds_restores (hbase : base.NonNeg) (r : Request) (budget : Option BudgetRow)
    (htimeout : budget = none → NoTimeout db .record)
    {budgets : List ApplicableBudget} (hnodup : (budgets.map ApplicableBudget.id).Nodup)
    (hrecord : r.recordReservation = false → budgets = []) (ceilings : List ApplicableCeiling)
    {ask : Ask} (hask : ask.held.NonNeg) (h : s.At base) :
    (takeHolds db r budget budgets ceilings ask).Ends s (fun _ _ => True)
      (FailsWith (SameHolds base)) := by
  have hweaken : ∀ (e : Failure DatabaseError Refusal) (s' : Session Store),
      FailsWith (· = base) e s' → FailsWith (SameHolds base) e s' := by
    intro e s' he
    rw [FailsWith] at he ⊢
    rw [he]
    exact .refl _
  have hstart : s.At (base.addHolds [] ask.held) := by
    rwa [Store.addHolds, Store.updateCeilings_nil]
  unfold takeHolds
  rw [ends_bind]
  refine (ends_reserveFrom hserver hback hbase hask budgets [] (by simpa using hnodup) hstart).mono
    (fun refused s₁ h₁ => ?_)
    fun _ _ he => hweaken _ _ (failsWith_of_fails he fun _ hd => hd)
  rw [List.nil_append] at h₁
  cases refused with
  | some refusing =>
    dsimp only
    rw [ceilingBlockedAxis, ends_bind, ends_bind]
    refine (ends_query h₁ _).mono (fun _ s₂ h₂ => ?_) fun _ _ he => ?_
    · rw [ends_pure, ends_raise]
      exact hweaken _ _ h₂.2.1
    · obtain ⟨d, rfl, hc, -⟩ := he
      exact hweaken _ _ hc
  | none =>
    cases budget with
    | none =>
      exact (ends_heldHandleCommitted hserver (htimeout rfl) _ _ h₁).mono
        (fun _ _ _ => trivial) fun _ _ h => h.elim
    | some b =>
      dsimp only
      rw [ends_bind]
      refine (ends_holdOnUser hback hbase hask r.userId _ h₁).mono (fun held s₂ h₂ => ?_)
        hweaken
      obtain ⟨w, hw, hopen, hunmatched⟩ := h₂
      rw [ends_ite]
      refine ⟨fun _ => ?_, fun hrefused => ?_⟩
      · refine ends_heldHandleUncommitted hserver hback hbase _ ?_ hrecord hw ?_
        · dsimp only
          split_ifs
          · exact ⟨le_rfl, le_rfl, le_rfl⟩
          · exact hask
        · by_cases hnone : budgets = []
          · subst hnone
            simpa [Taken.scopedIds, Store.addHolds] using hopen
          · simpa [Taken.scopedIds, hnone] using hopen
      · rw [not_or] at hrefused
        rw [hunmatched (Bool.eq_false_of_not_eq_true hrefused.1)] at hopen
        exact (ends_refuseUser hback hbase r b.caps hask budgets hopen).mono
          (fun _ _ _ => trivial) hweaken

end

end Otari.Reservations

import Otari.Reservations.TopUps
import Otari.Reservations.RefusalRestores

/-!
# Reservations — UserLeg — the user's leg of a top-up

A top-up grows the user's hold through `reserve_budget`, with no scope and no row of its own.  Such
a request holds on the user or on nothing (`LegTook`), and where it raises, what is held is as
before: `ends_userLeg`.  The window may start on the way, which moves no hold and leaves the user
standing (`Standing`).
-/

namespace Otari.Reservations
open Transactions Raising Raising.Program

variable {db : Db} {s : Session Store} {base c w : Store}

def Standing (userId : ℕ) (c w : Store) : Prop :=
  SameHolds c w ∧ (w.activeUser userId).isSome = true

theorem Store.activeUser_updateUser (s : Store) (userId : ℕ) {f : User → User}
    (hf : ∀ u, (f u).deleted = u.deleted) :
    (s.updateUser userId f).activeUser userId = (s.activeUser userId).map f := by
  rw [activeUser, activeUser, updateUser]
  dsimp only
  rw [Function.update_self]
  cases s.users userId with
  | none => rfl
  | some u => cases hu : u.deleted <;> simp [Option.filter, hf, hu]

theorem Standing.resetUser {userId : ℕ} (hw : Standing userId c w) (now start : ℤ)
    (next : Option ℤ) : Standing userId c (w.resetUser userId now start next).2 := by
  refine ⟨hw.1.trans (.resetUser w userId now start next), ?_⟩
  rw [Store.resetUser]
  split
  · split_ifs
    · rw [Store.activeUser_updateUser, Option.isSome_map]
      · exact hw.2
      · exact fun _ => rfl
    · exact hw.2
  · exact hw.2

/-- What a leg without a scope did to the counters. -/
inductive LegTook (userId : ℕ) (c : Store) : ReservationHandle → Store → Prop where
  | nothing {leg : ReservationHandle} {w : Store} (hleg : leg.reserved = false)
      (hw : SameHolds c w) : LegTook userId c leg w
  | held {leg : ReservationHandle} {w : Store} (hleg : leg.reserved = true)
      (hrequests : leg.requestEstimate = 0) (hw : Standing userId c w) :
      LegTook userId c leg (w.updateUser userId fun user =>
        { user with usage := user.usage.hold ⟨leg.estimate, leg.tokenEstimate, 0⟩ })

/-- The kinds of statement that come after the ceilings grew. -/
def laterKinds : List Kind := [.lookup, .price, .roll, .userHold, .record, .grow]

section
variable (hback : db.Calm .giveBack)
include hback

theorem ends_holdOnUser_unscoped (userId : ℕ) (guards : Usage → List (Axis × Truth))
    (held : HeldAmounts) (h : s.At c) : (holdOnUser db userId guards [] held).Ends s
      (fun matched s' => matched = (c.holdUser userId guards held).1 ∧
        s'.Open c (c.holdUser userId guards held).2) (Ended db laterKinds (· = c)) := by
  have hkind : Kind.userHold ∈ laterKinds := by simp [laterKinds]
  by_cases hcalm : db.Calm .userHold
  · refine ends_onDatabaseError (P := fun _ => False) ?_ fun _ _ h => h.elim
    rw [ends_bind]
    refine (calm_execute hcalm h id).mono (fun _ s₁ h₁ => ?_) fun _ _ he => he
    exact calm_statement hcalm h₁ _
  · refine ends_onDatabaseError (P := fun s' => s'.committed = c) ?_ fun d s₁ h₁ => ?_
    · rw [ends_bind]
      refine (ends_execute h id).mono (fun _ s₁ h₁ => ?_) fun _ _ he => he.mono fun _ hd => hd.1
      exact (ends_statement h₁ _).mono (fun _ _ h => h) fun _ _ he => he.mono fun _ hd => hd.1
    · rw [ends_bind]
      refine (ends_suppress (Q := fun _ s' => s'.At s₁.committed) ?_).mono (fun _ s₂ h₂ => ?_)
        fun _ _ h => h
      · rw [ends_bind]
        exact (calm_rollback hback).mono (fun _ _ h₂ => h₂) fun _ _ h => h
      · rw [ends_raise]
        exact .not_calm (h₂.1.trans h₁) hkind hcalm

theorem ends_heldHandle_unrecorded (hserver : db.Honest) (t : Taken) (h : s.Open c w) :
    (heldHandleUncommitted db t false).Ends s (fun leg s' => leg = t.handle none ∧ s'.At w)
      (Ended db laterKinds (· = c)) := by
  have hkind : Kind.record ∈ laterKinds := by simp [laterKinds]
  rw [heldHandleUncommitted, ends_bind]
  refine (ends_onDatabaseError (P := fun _ => False) (Q := fun row s' => row = none ∧ s'.Open c w)
    (E := Ended db laterKinds (· = c)) ?_ fun _ _ h => h.elim).mono (fun row s₁ h₁ => ?_)
    fun _ _ he => he
  · rw [ends_ite]
    exact ⟨fun hfalse => absurd hfalse Bool.false_ne_true, fun _ => ⟨rfl, h⟩⟩
  obtain ⟨rfl, hopen⟩ := h₁
  rw [ends_bind]
  by_cases hcalm : db.Calm .record
  · refine (ends_onDatabaseError (P := fun _ => False) (calm_commit hcalm hopen)
      fun _ _ h => h.elim).mono (fun _ s₂ h₂ => ?_) fun _ _ he => he
    rw [ends_pure]
    exact ⟨rfl, h₂⟩
  · refine (ends_onDatabaseError (P := fun s' => s'.At c)
      ((ends_commit hserver hopen).mono (fun _ _ h => h) fun _ _ he => he.mono fun _ hd => hd.1)
      fun d s₂ h₂ => ?_).mono (fun _ s₂ h₂ => ?_) fun _ _ he => he
    · rw [ends_bind]
      refine (ends_suppress (calm_rollback hback)).mono (fun _ s₃ h₃ => ?_) fun _ _ h => h
      rw [Taken.giveBackUnrecorded, ends_bind, ends_pure, ends_raise]
      exact .not_calm (h₃.1.trans h₂.1) hkind hcalm
    · rw [ends_pure]
      exact ⟨rfl, h₂⟩

theorem ends_refuseUser_unscoped (r : Request) (budget : Budget) (ask : Ask) (h : s.Open c c) :
    (refuseUser db r budget ask []).Ends s (fun _ _ => False) (Ended db laterKinds (· = c)) := by
  rw [refuseUser, ends_bind]
  refine (calm_commit hback h).mono (fun _ s₁ h₁ => ?_) fun _ _ h => h
  rw [ends_bind]
  refine (calm_release hback h₁ _ _).mono (fun _ s₂ h₂ => ?_) fun _ _ h => h
  rw [List.map_nil, Store.releaseHolds, Store.updateCeilings_nil] at h₂
  rw [ends_bind]
  refine (ends_query h₂ _).mono (fun _ s₃ h₃ => ?_)
    fun _ _ he => ended_of_fails he (by simp [laterKinds]) rfl
  dsimp only
  rw [ends_raise]
  exact .raised rfl h₃.2 rfl

theorem ends_takeHolds_broken (r : Request) (b : BudgetRow) (ceilings : List ApplicableCeiling)
    (ask : Ask) (hprice : ¬ db.Calm .price) (hc : s.committed = c) (hbroken : s.broken = true) :
    (takeHolds db r (some b) [] ceilings ask).Ends s (fun _ _ => False)
      (Ended db laterKinds (· = c)) := by
  unfold takeHolds
  rw [ends_bind, reserve, reserveFrom, ends_pure]
  dsimp only
  rw [ends_bind]
  refine ends_onDatabaseError (P := (· = s)) ?_ fun d s₁ h₁ => ?_
  · rw [ends_bind]
    exact (ends_broken hbroken _).mono (Q := fun _ _ => False) (fun _ _ h => h.elim)
      fun _ _ he => he
  · subst h₁
    rw [ends_bind]
    refine (ends_suppress (Q := fun _ s' => s'.At s₁.committed) ?_).mono (fun _ s₂ h₂ => ?_)
      fun _ _ h => h
    · rw [ends_bind]
      exact (calm_rollback hback).mono (fun _ _ h₂ => h₂) fun _ _ h => h
    · rw [ends_raise]
      exact .not_calm (h₂.1.trans hc) (by simp [laterKinds]) hprice

omit hback in
theorem Store.holdUser_of_uncapped {userId : ℕ} {ask : Ask} {held : HeldAmounts}
    (hw : (w.activeUser userId).isSome = true) {caps : Budget} (hcaps : caps = ⟨none, none, none⟩) :
    (w.holdUser userId (fun usage => userGuards usage caps ask) held).1 = true := by
  obtain ⟨user, huser⟩ := Option.isSome_iff_exists.mp hw
  subst hcaps
  rw [Store.holdUser, huser]
  dsimp only
  rw [if_pos]
  intro gate hgate
  cases hgate

theorem ends_takeHolds_unscoped (hserver : db.Honest) {r : Request}
    (hrecord : r.recordReservation = false) (b : BudgetRow) (ceilings : List ApplicableCeiling)
    {ask : Ask} (hask : ask.requests = 0) (hw : Standing r.userId base c) (h : s.At c) :
    (takeHolds db r (some b) [] ceilings ask).Ends s
      (fun leg s' => ∃ w, s'.At w ∧ LegTook r.userId base leg w ∧
        leg.estimate = ask.amount.getD 0 ∧ leg.tokenEstimate = ask.tokens)
      (Ended db laterKinds (SameHolds base)) := by
  have hweaken : ∀ {e : Failure DatabaseError Refusal} {s' : Session Store},
      Ended db laterKinds (· = c) e s' → Ended db laterKinds (SameHolds base) e s' := by
    intro e s' he
    refine he.mono (fun _ h => h) ?_
    rintro _ rfl
    exact hw.1
  unfold takeHolds
  rw [ends_bind, reserve, reserveFrom, ends_pure]
  dsimp only
  rw [ends_bind]
  refine (ends_holdOnUser_unscoped hback r.userId _ ask.held h).mono (fun matched s₁ h₁ => ?_)
    fun _ _ he => hweaken he
  obtain ⟨rfl, hopen⟩ := h₁
  rw [ends_ite]
  refine ⟨fun htook => ?_, fun hrefused => ?_⟩
  · have hmatched : (c.holdUser r.userId (fun usage => userGuards usage b.caps ask) ask.held).1 =
        true := by
      rcases htook with htook | hcaps
      · exact htook
      · exact Store.holdUser_of_uncapped hw.2 hcaps
    have hheld : (c.holdUser r.userId (fun usage => userGuards usage b.caps ask) ask.held).2 =
        c.updateUser r.userId fun user => { user with usage := user.usage.hold ask.held } := by
      rcases c.holdUser_cases r.userId (fun usage => userGuards usage b.caps ask) ask.held with
        hcase | hcase
      · rw [hcase]
      · rw [hcase] at hmatched
        cases hmatched
    rw [hheld] at hopen
    rw [hrecord]
    refine (ends_heldHandle_unrecorded hback hserver _ hopen).mono (fun leg s₂ h₂ => ?_)
      fun _ _ he => hweaken he
    obtain ⟨rfl, hat⟩ := h₂
    refine ⟨_, hat, ?_, rfl, rfl⟩
    have hask' : ask.held = ⟨ask.amount.getD 0, ask.tokens, 0⟩ := by rw [Ask.held, hask]
    rw [hask']
    exact .held rfl rfl hw
  · rw [not_or] at hrefused
    have hunmatched : (c.holdUser r.userId (fun usage => userGuards usage b.caps ask) ask.held).2 =
        c := by
      rcases c.holdUser_cases r.userId (fun usage => userGuards usage b.caps ask) ask.held with
        hcase | hcase
      · rw [hcase] at hrefused
        exact absurd rfl hrefused.1
      · rw [hcase]
    rw [hunmatched] at hopen
    exact (ends_refuseUser_unscoped hback r b.caps ask hopen).mono (fun _ _ h => h.elim)
      fun _ _ he => hweaken he

/-- **The user's leg.**  A request with no scope and no row holds on the user or on nothing. -/
theorem ends_userLeg (hserver : db.Honest) {r : Request} (hscope : r.scope = none)
    (hrecord : r.recordReservation = false) (hrequests : r.requests = 0) (h : s.At c) :
    (reserveBudget db r).Ends s (fun leg s' => ∃ w, s'.At w ∧ LegTook r.userId c leg w ∧
        (leg.reserved = true → ∃ free, leg.estimate = (r.ask free).amount.getD 0 ∧
          leg.tokenEstimate = (r.ask free).tokens)) (Ended db laterKinds (SameHolds c)) := by
  -- the ways out on which nothing is held
  have hnothing : ∀ {leg : ReservationHandle} {w : Store} {s' : Session Store},
      leg.reserved = false → SameHolds c w → s'.At w → ∃ w, s'.At w ∧ LegTook r.userId c leg w ∧
        (leg.reserved = true → ∃ free, leg.estimate = (r.ask free).amount.getD 0 ∧
          leg.tokenEstimate = (r.ask free).tokens) := by
    intro leg w s' hleg hw hat
    refine ⟨w, hat, .nothing hleg hw, fun hreserved => ?_⟩
    rw [hleg] at hreserved
    cases hreserved
  rw [reserveBudget, ends_bind]
  refine (ends_query h _).mono (fun loaded s₁ h₁ => ?_)
    fun _ _ he => ended_of_fails he (by simp [laterKinds]) (.refl c)
  obtain ⟨rfl, h₁⟩ := h₁
  split
  · rw [ends_raise]
    exact .raised (.refl c) h₁ rfl
  rename_i user budget hloaded
  have hstanding : Standing r.userId c c := by
    refine ⟨.refl c, ?_⟩
    rw [Store.activeUserWithBudget, Option.map_eq_some_iff] at hloaded
    obtain ⟨u, hu, -⟩ := hloaded
    rw [hu]
    rfl
  rw [ends_ite]
  refine ⟨fun _ => .raised (.refl c) h₁ rfl, fun _ => ?_⟩
  rw [ends_ite]
  refine ⟨fun _ => hnothing rfl (.refl c) h₁, fun _ => ?_⟩
  rw [ends_ite]
  refine ⟨fun _ => hnothing rfl (.refl c) h₁, fun _ => ?_⟩
  rw [reserveEnforced, ends_bind]
  refine (ends_resetDue hserver (fun w now start next hw => hw.resetUser now start next) user budget
    hstanding h₁).mono (fun user s₂ h₂ => ?_)
    fun _ _ he => he.mono (by simp [laterKinds]) fun _ hw => hw.1
  obtain ⟨c₂, hat₂, hstanding₂⟩ := h₂
  -- without a scope no ceiling is looked up, so the leg is the user's row alone
  rw [scopeCeilings, hscope]
  dsimp only
  rw [ends_bind, ends_pure]
  dsimp only
  rw [ends_ite]
  refine ⟨fun _ => hnothing rfl hstanding₂.1 hat₂, fun hbudget => ?_⟩
  obtain ⟨b, rfl⟩ : ∃ b, budget = some b := by
    refine Option.isSome_iff_exists.mp ?_
    rw [← Option.not_isNone, Bool.not_eq_true']
    exact Bool.eq_false_of_not_eq_true fun hnone => hbudget ⟨hnone, rfl⟩
  rw [ends_bind]
  refine (ends_isFree r hat₂).mono (fun free s₃ h₃ => ?_)
    fun _ _ he => he.mono (by simp [laterKinds]) (by rintro _ rfl; exact hstanding₂.1)
  rw [ends_ite]
  refine ⟨fun hempty => hnothing rfl hstanding₂.1 (h₃.2 (.inr hempty.1)), fun _ => ?_⟩
  rw [ends_bind, hrecord, ends_ite]
  refine ⟨fun hrecorded => absurd hrecorded.1 Bool.false_ne_true, fun _ => ?_⟩
  rw [ends_pure]
  have hask : (r.ask free).requests = 0 := by rw [Request.ask, hrequests, max_self]
  -- the price was looked up, or its lookup broke the transaction
  rcases h₃.1 with hat | ⟨hc, hbroken⟩
  · refine (ends_takeHolds_unscoped hback hserver hrecord b _ hask hstanding₂ hat).mono
      (fun leg s₄ h₄ => ?_) fun _ _ he => he
    obtain ⟨w, hw, htook, hestimate, htokens⟩ := h₄
    exact ⟨w, hw, htook, fun _ => ⟨free, hestimate, htokens⟩⟩
  · by_cases hprice : db.Calm .price
    · have hat := h₃.2 (.inl hprice)
      rw [hat.2.2] at hbroken
      cases hbroken
    · refine (ends_takeHolds_broken hback r b _ _ hprice hc hbroken).mono (fun _ _ h => h.elim)
        fun _ _ he => he.mono (fun _ h => h) ?_
      rintro _ rfl
      exact hstanding₂.1

end

end Otari.Reservations

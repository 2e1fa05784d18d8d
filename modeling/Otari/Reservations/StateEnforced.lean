import Otari.Reservations.BudgetState
import Otari.Reservations.GateExplained

/-!
# Reservations — StateEnforced — the reported budget state is what the gates enforce

`Enforced` says it of a store, an instant and a user: each amount reported is the one the gates of
every request compare; in a state with nothing remaining `reserve_budget` takes no arrival; and in one
with `x` remaining it takes an arrival of no more than `x` that nothing else stops.

`state_enforced` says exactly when.  The report reads the user's row as it is stored, where the gate
rolls a window that has ended and first gives back what has expired of the user's holds
(`stale_user_window`); and it takes every ceiling's ended window for rolled, where the gate leaves one
whose alignment is unknown.
-/

namespace Otari.Reservations
open Transactions Raising Raising.Program List

/-! ### The property -/

/-- An arrival of the user on the scopes that were read, whose dollars count. -/
structure Arrives (q : StateRequest) (r : Request) : Prop where
  user : r.userId = q.userId
  scope : r.scope = q.scope
  strategy : r.strategy = q.strategy
  counts : r.countsTowardBudget = true
  arrival : r.newRequest = true
  priced : r.modelIsFree = some false ∨ (r.modelIsFree = none ∧ r.price ≠ some (some true))

variable {s w : Store} {now : ℤ} {q : StateRequest}

variable {ask : Ask} {cap : ℤ}

variable {user : User} {t : Store} {a : Amounts}

variable {db : Db} {σ : Session Store}

/-- A ceiling that a hold on another leaves refuses what it refused. -/
def CeilingRefuses (w : Store) (ask : Ask) (id : ℕ) : Prop :=
  ∃ c, w.ceilings id = some c ∧ ¬ Admitted (ceilingGates c.usage (w.capsOf c) ask)

theorem CeilingRefuses.holdCeiling {id : ℕ} (h : CeilingRefuses w ask id) :
    w.holdCeiling id ask = (false, w) := by
  obtain ⟨c, hc, hgate⟩ := h
  rw [Store.holdCeiling, hc]
  exact if_neg hgate

theorem holdCeiling_other {id other : ℕ} (hne : id ≠ other) :
    (w.holdCeiling other ask).2.ceilings id = w.ceilings id := by
  rcases w.holdCeiling_cases other ask with hheld | hheld
  · simp [hheld, Store.addHolds, Store.updateCeilings, hne]
  · rw [hheld]

theorem holdCeiling_budgets (other : ℕ) :
    (w.holdCeiling other ask).2.budgets = w.budgets ∧ (w.holdCeiling other ask).2.users = w.users := by
  rcases w.holdCeiling_cases other ask with hheld | hheld <;> rw [hheld] <;> exact ⟨rfl, rfl⟩

theorem CeilingRefuses.other {id other : ℕ} (h : CeilingRefuses w ask id)
    (hne : id ≠ other) : CeilingRefuses (w.holdCeiling other ask).2 ask id := by
  rw [CeilingRefuses, holdCeiling_other hne]
  simpa only [CeilingRefuses, Store.capsOf, holdCeiling_budgets other] using h

def CeilingPasses (w : Store) (ask : Ask) (id : ℕ) : Prop :=
  ∃ c, w.ceilings id = some c ∧ Admitted (ceilingGates c.usage (w.capsOf c) ask)

theorem CeilingPasses.other {id other : ℕ} (h : CeilingPasses w ask id)
    (hne : id ≠ other) : CeilingPasses (w.holdCeiling other ask).2 ask id := by
  rw [CeilingPasses, holdCeiling_other hne]
  simpa only [CeilingPasses, Store.capsOf, holdCeiling_budgets other] using h

variable {budgets : List ApplicableBudget}

variable {r : Request} {budget : Option BudgetRow} {ceilings : List ApplicableCeiling}

section
variable (hcalm : ∀ kind, db.Calm kind)
include hcalm

end

/-! ### Up to the gates -/

/-- A part of a request before its gates: where it returns `Q` holds, and it raises nothing on a database
that answers everything, if the user's cadence is known. -/
abbrev Reaches (db : Db) (known : Prop) {α : Type} (x : Call α) (σ : Session Store)
    (Q : α → Session Store → Prop) : Prop :=
  x.Ends σ Q fun _ _ => known → ¬ ∀ kind, db.Calm kind

variable {known : Prop}

theorem Reaches.bind {α β : Type} {x : Call α} {f : α → Call β} {Q : α → Session Store → Prop}
    {R : β → Session Store → Prop} (h : Reaches db known x σ Q)
    (hf : ∀ a σ', Q a σ' → Reaches db known (f a) σ' R) : Reaches db known (x >>= f) σ R := by
  rw [Reaches, ends_bind]
  exact h.mono hf fun _ _ he => he

theorem not_calm_of_fails {kind : Kind} {P : DatabaseError → Session Store → Prop}
    {e : Failure DatabaseError Refusal} (h : Fails P e σ) (hraises : ∀ d, P d σ → db.Raises kind d) :
    known → ¬ ∀ kind, db.Calm kind := by
  obtain ⟨d, -, hd⟩ := h
  exact fun _ hcalm => (hcalm kind).not_raises d (hraises d hd)

theorem reaches_statement {α : Type} {kind : Kind} {c : Store} (h : σ.Open c w)
    (f : Store → α × Store) :
    Reaches db known (statement db kind f : Call α) σ fun a σ' => a = (f w).1 ∧ σ'.Open c (f w).2 :=
  (ends_statement h f).mono (fun _ _ h => h) fun _ _ he => not_calm_of_fails he fun _ hd => hd.2

theorem reaches_execute {kind : Kind} {c : Store} (h : σ.Open c w) (f : Store → Store) :
    Reaches db known (execute db kind f : Call Unit) σ fun _ σ' => σ'.Open c (f w) :=
  (ends_execute h f).mono (fun _ _ h => h) fun _ _ he => not_calm_of_fails he fun _ hd => hd.2

theorem reaches_commit {kind : Kind} {c : Store} (h : σ.Open c w) :
    Reaches db known (commit db kind : Call Unit) σ fun _ σ' => σ'.At w :=
  (ends_commit_raises h).mono (fun _ _ h => h) fun _ _ he => not_calm_of_fails he fun _ hd => hd

variable (hclock : ∀ n, db.clock n = now)

include hclock

omit hclock in
theorem reaches_casReset {userId : ℕ} {b : BudgetRow} {window : Option (ℤ × ℤ)}
    (hwindow : b.periodWindow now = .ok window) (hrow : w.users userId = some user) (h : σ.At w) :
    Reaches db known (casResetUserBudget db userId user b now) σ fun user' σ' =>
      user'.usage.held = user.usage.held ∧
        σ'.At (w.resetUser userId now (window.elim now Prod.fst) (window.map Prod.snd)).2 := by
  have hsame := SameHolds.resetUser w userId now (window.elim now Prod.fst) (window.map Prod.snd)
  rw [casResetUserBudget, hwindow]
  generalize hafter : (w.resetUser userId now (window.elim now Prod.fst) (window.map Prod.snd)).2 =
    after at hsame ⊢
  have hread : ∀ (read : Store → Option User) (σ' : Session Store),
      (∀ s u, read s = some u → s.users userId = some u) → σ'.At after →
      Reaches db known (query db .lookup read >>= fun refreshed => pure (refreshed.getD user) : Call User)
        σ' fun user' σ' => user'.usage.held = user.usage.held ∧ σ'.At after := by
    intro read σ' hfrom hat
    refine (reaches_statement hat _).bind fun refreshed σ₄ h₄ => ⟨?_, h₄.2⟩
    cases hrefreshed : refreshed with
    | none => rfl
    | some u =>
      have hmap := hsame.users userId
      rw [hfrom after u (h₄.1.symm.trans hrefreshed), hrow] at hmap
      exact (Option.some.inj hmap).symm
  refine (reaches_execute h id).bind fun _ σ₂ h₂ => (reaches_statement h₂ _).bind
    fun rolled σ₃ h₃ => ?_
  have hopen : σ₃.Open w after := hafter ▸ h₃.2
  split_ifs
  · refine Reaches.bind (Q := fun _ σ' => σ'.At after) ?_ fun _ σ₄ h₄ =>
      hread _ σ₄ (fun s u hu => (Option.filter_eq_some_iff.mp hu).1) h₄
    refine ends_onSqlAlchemyError (P := fun d _ => db.Raises .roll d)
      (ends_commit_raises hopen) (fun σ₄ hraises => ?_) fun _ hraises _ hcalm =>
        (hcalm .roll).not_raises _ hraises
    have hnot : known → ¬ ∀ kind, db.Calm kind := fun _ hcalm =>
      (hcalm .roll).not_raises _ hraises
    rw [ends_bind]
    exact Ends.mono (leads_any _ _) (fun _ _ _ => hnot) fun _ _ _ => hnot
  · exact (reaches_commit hopen).bind fun _ σ₄ h₄ => hread _ σ₄ (fun s u hu => hu) h₄

omit hclock in
/-- **Both rolls move a window as `rolled_window` does**, where the cadence is a budget's columns. -/
theorem reaches_rolledWindow {t : Datetime} {duration : Option ℤ} {alignment : Option String}
    {start : ℤ} {ends : Option ℤ} (hroll : rolledWindow t duration alignment = .ok (start, ends))
    {cadence : PeriodWindow}
    (hcadence : cadence t.instant = (periodWindow t duration alignment).mapError fun _ => ())
    (h : σ.At w) :
    (∀ a : ApplicableCeiling, a.periodWindow = cadence → periodEnded t.instant a.periodEnd →
      Reaches db known (rollEnded db t.instant a) σ fun _ σ' =>
        σ'.Open w (w.rollPeriod a.id t.instant start ends)) ∧
    ∀ (b : BudgetRow) (userId : ℕ), b.periodWindow = cadence → w.users userId = some user →
      Reaches db known (casResetUserBudget db userId user b t.instant) σ fun _ σ' =>
        σ'.At (w.resetUser userId t.instant start ends).2 := by
  rw [rolledWindow] at hroll
  cases hwindow : periodWindow t duration alignment with
  | error e => rw [hwindow] at hroll; cases hroll
  | ok window =>
    rw [hwindow] at hroll hcadence
    cases hroll
    refine ⟨fun a ha hended => ?_, fun b userId hb hrow => ?_⟩
    · rw [rollEnded, if_pos hended, ha, hcadence]
      exact reaches_execute h _
    · exact (reaches_casReset (hb ▸ hcadence) hrow h).mono (fun _ _ h => h.2) fun _ _ he => he

omit hclock

end Otari.Reservations

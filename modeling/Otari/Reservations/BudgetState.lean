import Otari.Reservations.RefusalRestores
import Otari.Reservations.Periods

/-!
# Reservations — BudgetState — what is reported of a user's budgets

`get_budget_state` of `_reservations.py`, which a routing policy's conditions read.  It takes the
user's budget and every ceiling on the request's scopes that caps all providers, and reports the
highest percentage used and the least headroom.

* `reportedAmounts`: what it reads of each budget.  A ceiling's ended window counts as rolled; the
  user's row is read as it is stored.
* `enforcedAmounts`: the same budgets in the store a request reaches its gates with, every window
  that has ended by then rolled (`rolled`) and, where its row is recorded, what has expired of its
  user's holds given back (`gated`).
* `reported_eq_iff`: when the two are the same.

Amounts are the exact ones of the columns; the report narrows its own to floats.
-/

namespace Otari.Reservations
open List

/-! ### What is reported -/

/-- What a read of the state names: a user, the scopes of the request with the flag of its key, and
the deployment's strategy. -/
structure StateRequest where
  userId : ℕ
  scope : Option BudgetScopeRequest
  excludeFromBudget : Bool
  strategy : Strategy

def StateRequest.ceilingIds (q : StateRequest) : List ℕ :=
  q.scope.elim [] BudgetScopeRequest.ceilingIds

def StateRequest.Ungated (q : StateRequest) : Prop :=
  q.strategy = .disabled ∨ (q.scope.isSome ∧ q.excludeFromBudget)

instance StateRequest.instDecidableUngated (q : StateRequest) : Decidable q.Ungated :=
  inferInstanceAs (Decidable (_ ∨ _))

/-- The dollars of one budget: what its window has recorded, what is held, and its cap. -/
structure Amounts where
  recorded : ℤ
  reserved : ℤ
  cap : ℤ
deriving DecidableEq

def Amounts.committed (a : Amounts) : ℤ := a.recorded + a.reserved

structure BudgetState where
  usedPct : Option ℚ
  remainingUsd : Option ℚ
deriving DecidableEq

def Amounts.usedPct (a : Amounts) : ℚ :=
  if 0 < usd a.cap then usd a.committed / usd a.cap * 100 else 100

def Amounts.remainingUsd (a : Amounts) : ℚ := max 0 (usd a.cap - usd a.committed)

/-- The store with the user's window rolled, if it has ended.  An unknown alignment raises, and
leaves it. -/
def rollUserDue (now : ℤ) (userId : ℕ) (s : Store) : Store :=
  match s.activeUserWithBudget userId with
  | some (user, some budget) =>
    if periodEnded now user.nextBudgetResetAt then
      match budget.periodWindow now with
      | .ok window => (s.resetUser userId now (window.elim now Prod.fst) (window.map Prod.snd)).2
      | .error _ => s
    else s
  | _ => s

/-- The store with a ceiling's window rolled, as `roll_ended_windows` does. -/
def rollCeilingDue (now : ℤ) (s : Store) (c : ApplicableCeiling) : Store :=
  if periodEnded now c.periodEnd then
    match c.periodWindow now with
    | .ok window => s.rollPeriod c.id now (window.elim now Prod.fst) (window.map Prod.snd)
    | .error _ => s
  else s

def applicable (s : Store) (q : StateRequest) : List ApplicableCeiling :=
  match q.scope with
  | none => []
  | some scope => getProviderCeilings (s.listApplicable scope.ceilingIds) scope.providerInstance

/-- The store a request reaches its gates with: every window that has ended by now rolled. -/
def rolled (s : Store) (now : ℤ) (q : StateRequest) : Store :=
  let s := rollUserDue now q.userId s
  (applicable s q).foldl (rollCeilingDue now) s

/-- The store with the user's expired reservations given back, as `reclaim_expired_for_user` does. -/
def reclaimed (s : Store) (now : ℤ) (userId : ℕ) : Store :=
  (s.listExpired userId now 20).foldl Store.expire s

/-- Whether a request of the user whose row is recorded reclaims first. -/
def reclaims (s : Store) (userId : ℕ) : Bool :=
  (s.activeUserWithBudget userId).any fun p => !holdsNothing p.1 p.2

/-- The store a request reaches its gates with. -/
def gated (s : Store) (now : ℤ) (q : StateRequest) (recorded : Bool) : Store :=
  if recorded && reclaims s q.userId then reclaimed (rolled s now q) now q.userId
  else rolled s now q

variable {a : ApplicableCeiling} {c : ScopedBudget} {b : BudgetRow}

variable {id : ℕ}

/-- What a ceiling caps, which no roll changes. -/
def ScopedBudget.subject (c : ScopedBudget) : ℕ × Option String := (c.budgetId, c.providerKeyId)

/-- Whether a user may call, and their budget. -/
def User.account (u : User) : Bool × Bool × Option ℕ := (u.blocked, u.deleted, u.budgetId)

/-- The same users and ceilings, on the same budgets. -/
structure SameSubjects (s t : Store) : Prop where
  users : ∀ id, (t.users id).map User.account = (s.users id).map User.account
  ceilings : ∀ id, (t.ceilings id).map ScopedBudget.subject = (s.ceilings id).map ScopedBudget.subject
  budgets : t.budgets = s.budgets

theorem SameSubjects.refl (s : Store) : SameSubjects s s := ⟨fun _ => rfl, fun _ => rfl, rfl⟩

theorem SameSubjects.trans {s t u : Store} (h : SameSubjects s t) (h' : SameSubjects t u) :
    SameSubjects s u :=
  ⟨fun id => (h'.users id).trans (h.users id), fun id => (h'.ceilings id).trans (h.ceilings id),
    h'.budgets.trans h.budgets⟩

theorem SameSubjects.foldl {α : Type} {f : Store → α → Store} (hf : ∀ s a, SameSubjects s (f s a))
    (l : List α) (s : Store) : SameSubjects s (l.foldl f s) := by
  induction l generalizing s with
  | nil => exact .refl s
  | cons a l ih => exact (hf s a).trans (ih (f s a))

theorem SameSubjects.updateUser (s : Store) (userId : ℕ) {f : User → User}
    (hf : ∀ u, (f u).account = u.account) : SameSubjects s (s.updateUser userId f) := by
  refine ⟨fun id => ?_, fun _ => rfl, rfl⟩
  dsimp only [Store.updateUser]
  by_cases hid : id = userId
  · subst hid
    rw [Function.update_self, Option.map_map]
    exact congrArg (Option.map · (s.users id)) (funext hf)
  · rw [Function.update_of_ne hid]

theorem SameSubjects.updateCeilings (s : Store) (ids : List ℕ) {f : ScopedBudget → ScopedBudget}
    (hf : ∀ c, (f c).subject = c.subject) : SameSubjects s (s.updateCeilings ids f) := by
  refine ⟨fun _ => rfl, fun id => ?_, rfl⟩
  dsimp only [Store.updateCeilings]
  split_ifs
  · rw [Option.map_map]
    exact congrArg (Option.map · (s.ceilings id)) (funext hf)
  · rfl

variable {s : Store} {now : ℤ} {q : StateRequest}

theorem mem_applicable : a ∈ applicable s q ↔ a ∈ s.listApplicable q.ceilingIds ∧
      (a.providerKeyId.isNone ∨ a.providerKeyId = q.scope.bind BudgetScopeRequest.providerInstance) := by
  rw [applicable, StateRequest.ceilingIds]
  split
  · rename_i h
    simp [h, Store.listApplicable]
  · rename_i scope h
    simp [h, getProviderCeilings, mem_insertionSort]

variable {userId : ℕ}

theorem activeUserWithBudget_iff {user : User} {budget : Option BudgetRow} :
    s.activeUserWithBudget userId = some (user, budget) ↔
      s.users userId = some user ∧ user.deleted = false ∧ user.budgetId.bind s.budgets = budget := by
  simp only [Store.activeUserWithBudget, Store.activeUser, Option.map_eq_some_iff,
    Option.filter_eq_some_iff, Prod.mk.injEq]
  constructor
  · rintro ⟨u, ⟨hu, hdeleted⟩, rfl, rfl⟩
    exact ⟨hu, by simpa using hdeleted, rfl⟩
  · rintro ⟨hu, hdeleted, rfl⟩
    exact ⟨user, ⟨hu, by simp [hdeleted]⟩, rfl, rfl⟩

theorem SameSubjects.loaded {t : Store} (h : SameSubjects s t) {user : User} {budget : Option BudgetRow}
    (hloaded : t.activeUserWithBudget userId = some (user, budget)) :
    ∃ user₀, s.activeUserWithBudget userId = some (user₀, budget) ∧ user₀.blocked = user.blocked := by
  obtain ⟨huser, hdeleted, hbudget⟩ := activeUserWithBudget_iff.mp hloaded
  have hmap := h.users userId
  rw [huser] at hmap
  obtain ⟨user₀, huser₀, haccount⟩ := Option.map_eq_some_iff.mp hmap.symm
  obtain ⟨hblocked, hrest⟩ := Prod.mk.inj haccount
  obtain ⟨hdeleted₀, hbudget₀⟩ := Prod.mk.inj hrest
  exact ⟨user₀, activeUserWithBudget_iff.mpr ⟨huser₀, hdeleted₀.trans hdeleted,
    by rw [hbudget₀, ← h.budgets, hbudget]⟩, hblocked⟩

theorem SameSubjects.listed {t : Store} (h : SameSubjects s t) (hid : id ∈ q.ceilingIds)
    (hc : t.ceilings id = some c) (hb : t.budgets c.budgetId = some b)
    (hprovider : c.providerKeyId = none) : ∃ a ∈ applicable s q, a.id = id := by
  have hmap := h.ceilings id
  rw [hc] at hmap
  obtain ⟨c₀, hc₀, hsubject⟩ := Option.map_eq_some_iff.mp hmap.symm
  obtain ⟨hbudget, hprovider₀⟩ := Prod.mk.inj hsubject
  have hb₀ : s.budgets c₀.budgetId = some b := by rw [hbudget, ← h.budgets, hb]
  refine ⟨⟨id, c₀.scopeType, c₀.providerKeyId, b.periodWindow, c₀.periodEnd, b.caps.tokenLimit,
    b.caps.requestLimit⟩, mem_applicable.mpr ⟨?_, .inl (by rw [hprovider₀, hprovider]; rfl)⟩, rfl⟩
  exact mem_filterMap.mpr ⟨id, hid, by simp [hc₀, hb₀]⟩

end Otari.Reservations

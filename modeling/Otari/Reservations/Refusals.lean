import Otari.Support.Truth
import Otari.Pricing.MeteredPricing

/-!
# Reservations — Refusals — the gate of a hold, and what a refusal says

The conditional UPDATE that takes a hold is in `scoped_budget_repository.py` for a ceiling and in
`_reservations.py` for a user's budget.  `_refusals.py` tests one axis again in Python, to say which
one had no room.

A dollar column is `NUMERIC(18, 6)`, an `ℤ` of micro-dollars here, and `bindUsd` is how an amount
reaches one: rounded half-up as it is bound.  Python compares the amount as it is.
`explanation_agrees` says when the two tests agree, which is everywhere but where the amount passes
the cap by no more than the rounding takes off it (`RoundedIn`).
-/

namespace Otari.Reservations

/-! ### Amounts -/

def usd (micros : ℤ) : ℚ := micros / 10 ^ Metered.costScale

/-- The parameter a dollar amount is bound as. -/
def bindUsd (amount : ℚ) : ℤ := Rounding.halfUp (amount * 10 ^ Metered.costScale)

theorem bindUsd_usd (micros : ℤ) : bindUsd (usd micros) = micros := by
  rw [bindUsd, usd, div_mul_cancel₀ _ (by positivity), Rounding.halfUp_intCast]

theorem usd_le_usd {m n : ℤ} : usd m ≤ usd n ↔ m ≤ n := by
  rw [usd, usd, div_le_div_iff_of_pos_right (by positivity), Int.cast_le]

theorem usd_add (m n : ℤ) : usd (m + n) = usd m + usd n := by
  rw [usd, usd, usd, Int.cast_add, add_div]

theorem usd_lt_of_lt_bindUsd {m : ℤ} {amount : ℚ} (h : m < bindUsd amount) : usd m < amount := by
  by_contra hle
  have hround : bindUsd amount ≤ Rounding.halfUp (usd m * 10 ^ Metered.costScale) :=
    Rounding.halfUp_mono (mul_le_mul_of_nonneg_right (not_lt.mp hle) (by positivity))
  rw [usd, div_mul_cancel₀ _ (by positivity), Rounding.halfUp_intCast] at hround
  exact absurd h (not_lt.mpr hround)

/-! ### Budgets and their use -/

inductive Axis where
  | budget | token | request
deriving DecidableEq

structure Budget where
  maxBudget : Option ℤ
  tokenLimit : Option ℤ
  requestLimit : Option ℤ
deriving DecidableEq

/-- The counters of a ceiling, or of a user: what is recorded and what is held on each axis. -/
structure Usage where
  spend : ℤ
  reserved : ℤ
  tokens : ℤ
  reservedTokens : ℤ
  requests : ℤ
  reservedRequests : ℤ
deriving DecidableEq

/-- What is asked of a gate.  No amount is a free-priced model, which is not asked about dollars. -/
structure Ask where
  amount : Option ℚ
  tokens : ℤ
  requests : ℤ
  newRequest : Bool
deriving DecidableEq

/-! ### The gates -/

/-- `admits`: one axis has room, or has no cap at all. -/
def admits (newRequest : Bool) (committed held : ℤ) (cap : Option ℤ) : Truth :=
  let fits := Truth.compare (· ≤ ·) (some (committed + held)) cap
  let fits := if newRequest then (Truth.compare (· < ·) (some committed) cap).and fits else fits
  (Truth.isNull cap).or fits

/-- The conditions of `ScopedBudgetRepository.hold`, each with its axis.  An axis whose amount is
absent is not asked. -/
def ceilingGates (usage : Usage) (budget : Budget) (ask : Ask) : List (Axis × Truth) :=
  [ (Axis.budget, usage.spend + usage.reserved, ask.amount.map bindUsd, budget.maxBudget),
    (.token, usage.tokens + usage.reservedTokens, some ask.tokens, budget.tokenLimit),
    (.request, usage.requests + usage.reservedRequests, some ask.requests, budget.requestLimit)
  ].filterMap fun (axis, committed, held, cap) =>
    held.map fun held => (axis, admits ask.newRequest committed held cap)

/-- `guards_for`, the clauses of `reserve_budget` for one capped axis. -/
def guardsFor (newRequest : Bool) (axis : Axis) (committed held cap : ℤ) : List (Axis × Truth) :=
  (axis, Truth.compare (· ≤ ·) (some (committed + held)) (some cap)) ::
    if newRequest then [(axis, Truth.compare (· < ·) (some committed) (some cap))] else []

/-- The guards of `reserve_budget` on the user's row. -/
def userGuards (usage : Usage) (budget : Budget) (ask : Ask) : List (Axis × Truth) :=
  (match budget.maxBudget, ask.amount with
    | some cap, some amount =>
      guardsFor ask.newRequest .budget (usage.spend + usage.reserved) (bindUsd amount) cap
    | _, _ => []) ++
  (match budget.tokenLimit with
    | some cap =>
      guardsFor ask.newRequest .token (usage.tokens + usage.reservedTokens) ask.tokens cap
    | none => []) ++
  match budget.requestLimit with
    | some cap =>
      guardsFor ask.newRequest .request (usage.requests + usage.reservedRequests) ask.requests cap
    | none => []

/-- The row matches where every condition of the gate holds. -/
def Admitted (gates : List (Axis × Truth)) : Prop := ∀ gate ∈ gates, gate.2.Holds

instance instDecidableAdmitted (gates : List (Axis × Truth)) : Decidable (Admitted gates) :=
  inferInstanceAs (Decidable (∀ gate ∈ gates, _))

/-! ### What a refusal says -/

structure BlockedAxis where
  name : Axis
  remaining : Option ℚ := none
  held : Option ℚ := none
  exceedsCap : Bool := false
  resetsAt : Option ℤ := none
deriving DecidableEq

def blockedOn (name : Axis) (committed cap wanted : ℚ) (newRequest : Bool) : Option BlockedAxis :=
  let exceedsCap := decide (cap < wanted)
  if cap < committed + wanted then
    if name = .budget ∧ committed < cap then
      some { name, remaining := some (cap - committed), held := some wanted, exceedsCap }
    else some { name, exceedsCap }
  else if newRequest ∧ cap ≤ committed then some { name, exceedsCap }
  else none

/-- One axis as the explanations loop over them. -/
structure AxisUse where
  name : Axis
  cap : Option ℚ
  committed : ℚ
  wanted : ℚ

def AxisUse.blocked (axis : AxisUse) (newRequest : Bool) : Option BlockedAxis :=
  axis.cap.bind fun cap => blockedOn axis.name axis.committed cap axis.wanted newRequest

/-- The loop of the explanations: the first axis that admits no hold, with the end of the window. -/
def firstBlocked (axes : List AxisUse) (newRequest : Bool) (resetsAt : Option ℤ) :
    Option BlockedAxis :=
  axes.findSome? fun axis => (axis.blocked newRequest).map fun b => { b with resetsAt }

/-- The axes `refused_axis` loops over. -/
def ceilingAxes (usage : Usage) (budget : Budget) (ask : Ask) : List AxisUse :=
  [ ⟨.budget, if ask.amount.isSome then budget.maxBudget.map usd else none,
      usd usage.spend + usd usage.reserved, ask.amount.getD 0⟩,
    ⟨.token, budget.tokenLimit.map (↑), usage.tokens + usage.reservedTokens, ask.tokens⟩,
    ⟨.request, budget.requestLimit.map (↑), usage.requests + usage.reservedRequests,
      ask.requests⟩ ]

/-- `CeilingUsage`: a ceiling's caps, its counters, and the end of its window. -/
structure CeilingUsage where
  budget : Budget
  usage : Usage
  periodEnd : Option ℤ

/-- `refused_axis`.  Where the ceiling is gone or the loop names no axis, the word is "budget". -/
def refusedAxis (usage : Option CeilingUsage) (ask : Ask) : BlockedAxis :=
  match usage with
  | none => { name := .budget }
  | some u =>
    (firstBlocked (ceilingAxes u.usage u.budget ask) ask.newRequest u.periodEnd).getD
      { name := .budget }

/-- The axes `_blocked_axis` loops over, whose counts are summed as integers. -/
def userAxes (usage : Usage) (budget : Budget) (ask : Ask) : List AxisUse :=
  [ ⟨.budget, if ask.amount.isSome then budget.maxBudget.map usd else none,
      usd usage.spend + usd usage.reserved, ask.amount.getD 0⟩,
    ⟨.token, budget.tokenLimit.map (↑), ↑(usage.tokens + usage.reservedTokens), ask.tokens⟩,
    ⟨.request, budget.requestLimit.map (↑), ↑(usage.requests + usage.reservedRequests),
      ask.requests⟩ ]

/-- `_blocked_axis`. -/
def blockedAxis (usage : Usage) (budget : Budget) (ask : Ask) (resetsAt : Option ℤ) : BlockedAxis :=
  (firstBlocked (userAxes usage budget ask) ask.newRequest resetsAt).getD { name := .budget }

end Otari.Reservations

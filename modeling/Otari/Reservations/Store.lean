import Otari.Support.Transactions
import Otari.Reservations.Refusals

/-!
# Reservations — Store — users, ceilings and the ledger of holds

The rows `services/budgets` keeps holds in, and the statements its repositories run on them.  A hold
is on a user's counters, on the counters of each ceiling the request bills to, and in one row of the
ledger with a line for each of those ceilings.

Ids are numbers.  A budget's cadence is the window it gives at an instant.  The log of budget resets
is left out: nothing here reads it.
-/

namespace Otari.Reservations
open Transactions Raising

/-! ### Rows -/

/-- What is held on one counter, on each axis, in Python. -/
structure HeldAmounts where
  amount : ℚ
  tokens : ℤ
  requests : ℤ
deriving DecidableEq

/-- The same in columns. -/
structure Held where
  amount : ℤ
  tokens : ℤ
  requests : ℤ
deriving DecidableEq

def HeldAmounts.bind (h : HeldAmounts) : Held := ⟨bindUsd h.amount, h.tokens, h.requests⟩

def Held.read (h : Held) : HeldAmounts := ⟨usd h.amount, h.tokens, h.requests⟩

def HeldAmounts.nothing : HeldAmounts := ⟨0, 0, 0⟩

/-- Whether there is anything to give back on some axis. -/
def HeldAmounts.Some (h : HeldAmounts) : Prop := 0 < h.amount ∨ 0 < h.tokens ∨ 0 < h.requests

instance instDecidableSome (h : HeldAmounts) : Decidable h.Some :=
  inferInstanceAs (Decidable (_ ∨ _))

/-- A cadence: the window at an instant, if it resets, or the `ValueError` of an unknown
alignment. -/
abbrev PeriodWindow := ℤ → Except Unit (Option (ℤ × ℤ))

structure BudgetRow where
  caps : Budget
  periodWindow : PeriodWindow

inductive ScopeType where
  | organization | workspace | workspaceMember | orgMember | apiToken
deriving DecidableEq

def scopePrecedence : ScopeType → ℕ
  | .workspaceMember => 0
  | .orgMember => 1
  | .apiToken => 2
  | .workspace => 3
  | .organization => 4

structure User where
  blocked : Bool
  deleted : Bool
  budgetId : Option ℕ
  usage : Usage
  budgetStartedAt : Option ℤ
  nextBudgetResetAt : Option ℤ
deriving DecidableEq

structure ScopedBudget where
  scopeType : ScopeType
  providerKeyId : Option String
  budgetId : ℕ
  usage : Usage
  periodStart : Option ℤ
  periodEnd : Option ℤ
deriving DecidableEq

inductive Status where
  | active | settled | released | expired
deriving DecidableEq

/-- A row of the ledger, with its lines: what it holds on each ceiling. -/
structure Reservation where
  id : ℕ
  userId : ℕ
  userReserved : Bool
  userHeld : Held
  status : Status
  expiresAt : ℤ
  lines : List (ℕ × Held)
deriving DecidableEq

structure Store where
  users : ℕ → Option User
  budgets : ℕ → Option BudgetRow
  ceilings : ℕ → Option ScopedBudget
  reservations : List Reservation

/-! ### Counters -/

def Usage.hold (u : Usage) (h : HeldAmounts) : Usage :=
  { u with
    reserved := u.reserved + bindUsd h.amount
    reservedTokens := u.reservedTokens + h.tokens
    reservedRequests := u.reservedRequests + h.requests }

/-- `case((column - amount < 0, 0), else_=column - amount)`. -/
def clampedSub (column amount : ℤ) : ℤ := if column - amount < 0 then 0 else column - amount

def Usage.release (u : Usage) (h : HeldAmounts) : Usage :=
  { u with
    reserved := if 0 < h.amount then clampedSub u.reserved (bindUsd h.amount) else u.reserved
    reservedTokens :=
      if 0 < h.tokens then clampedSub u.reservedTokens h.tokens else u.reservedTokens
    reservedRequests :=
      if 0 < h.requests then clampedSub u.reservedRequests h.requests else u.reservedRequests }

/-- A new window starts with nothing recorded.  What is held stays. -/
def Usage.roll (u : Usage) : Usage := { u with spend := 0, tokens := 0, requests := 0 }

def Usage.held (u : Usage) : Held := ⟨u.reserved, u.reservedTokens, u.reservedRequests⟩

namespace Store

/-! ### Statements on users -/

def updateUser (s : Store) (userId : ℕ) (f : User → User) : Store :=
  { s with users := Function.update s.users userId ((s.users userId).map f) }

/-- `get_active_user`. -/
def activeUser (s : Store) (userId : ℕ) : Option User := (s.users userId).filter (!·.deleted)

/-- `_active_user_with_budget`. -/
def activeUserWithBudget (s : Store) (userId : ℕ) : Option (User × Option BudgetRow) :=
  (s.activeUser userId).map fun user => (user, user.budgetId.bind s.budgets)

/-- The conditional UPDATE of the user's gate, and how many rows it matched. -/
def holdUser (s : Store) (userId : ℕ) (guards : Usage → List (Axis × Truth)) (h : HeldAmounts) :
    Bool × Store :=
  match s.activeUser userId with
  | some user =>
    if Admitted (guards user.usage) then
      (true, s.updateUser userId fun user => { user with usage := user.usage.hold h })
    else (false, s)
  | none => (false, s)

def releaseUser (s : Store) (userId : ℕ) (h : HeldAmounts) : Store :=
  match s.activeUser userId with
  | some _ => s.updateUser userId fun user => { user with usage := user.usage.release h }
  | none => s

def resetUser (s : Store) (userId : ℕ) (now : ℤ) (startedAt : ℤ) (nextResetAt : Option ℤ) :
    Bool × Store :=
  match s.activeUser userId with
  | some user =>
    if ∃ reset ∈ user.nextBudgetResetAt, reset ≤ now then
      (true, s.updateUser userId fun user =>
        { user with
          usage := user.usage.roll
          budgetStartedAt := some startedAt
          nextBudgetResetAt := nextResetAt })
    else (false, s)
  | none => (false, s)

/-! ### Statements on ceilings -/

def updateCeilings (s : Store) (ids : List ℕ) (f : ScopedBudget → ScopedBudget) : Store :=
  { s with ceilings := fun id => if id ∈ ids then (s.ceilings id).map f else s.ceilings id }

/-- The caps of the budget a ceiling names, read as subqueries: none where there is no budget. -/
def capsOf (s : Store) (ceiling : ScopedBudget) : Budget :=
  ((s.budgets ceiling.budgetId).map BudgetRow.caps).getD ⟨none, none, none⟩

/-- `ScopedBudgetRepository.hold`. -/
def holdCeiling (s : Store) (id : ℕ) (ask : Ask) : Bool × Store :=
  match s.ceilings id with
  | some ceiling =>
    if Admitted (ceilingGates ceiling.usage (s.capsOf ceiling) ask) then
      (true, s.updateCeilings [id] fun c =>
        { c with usage := c.usage.hold ⟨ask.amount.getD 0, ask.tokens, ask.requests⟩ })
    else (false, s)
  | none => (false, s)

/-- `release_holds`. -/
def releaseHolds (s : Store) (ids : List ℕ) (h : HeldAmounts) : Store :=
  s.updateCeilings ids fun c => { c with usage := c.usage.release h }

/-- `roll_period`. -/
def rollPeriod (s : Store) (id : ℕ) (now periodStart : ℤ) (periodEnd : Option ℤ) : Store :=
  s.updateCeilings [id] fun c =>
    if ∃ ends ∈ c.periodEnd, ends ≤ now then
      { c with usage := c.usage.roll, periodStart := some periodStart, periodEnd }
    else c

/-- `get_usage`. -/
def getUsage (s : Store) (id : ℕ) : Option CeilingUsage := do
  let ceiling ← s.ceilings id
  let budget ← s.budgets ceiling.budgetId
  return ⟨budget.caps, ceiling.usage, ceiling.periodEnd⟩

/-! ### Statements on the ledger -/

def freshId (s : Store) : ℕ := (s.reservations.map Reservation.id).foldr max 0 + 1

def reservation? (s : Store) (id : ℕ) : Option Reservation := s.reservations.find? (·.id = id)

def updateReservation (s : Store) (id : ℕ) (f : Reservation → Reservation) : Store :=
  { s with reservations := s.reservations.map fun r => if r.id = id then f r else r }

/-- `ReservationRepository.add`, and `add_released`. -/
def addReservation (s : Store) (r : Reservation) : Store :=
  { s with reservations := s.reservations ++ [r] }

def isActive (s : Store) (id : ℕ) : Bool :=
  s.reservations.any fun r => r.id = id && r.status = .active

/-- `_transition`. -/
def transition (s : Store) (id : ℕ) (current new : Status) : Bool × Store :=
  if s.reservations.any fun r => r.id = id && r.status = current then
    (true, s.updateReservation id fun r =>
      if r.status = current then { r with status := new } else r)
  else (false, s)

/-- `list_expired` of one user, oldest first. -/
def listExpired (s : Store) (userId : ℕ) (now : ℤ) (limit : ℕ) : List Reservation :=
  ((s.reservations.filter fun r => r.status = .active ∧ r.expiresAt < now ∧ r.userId = userId)
    |>.insertionSort fun a b => a.expiresAt ≤ b.expiresAt).take limit

end Store

/-! ### The session -/

inductive Kind where
  | lookup | price | roll | reclaim | ceilingHold | userHold | record | grow | move | giveBack
deriving DecidableEq

/-- `DATABASE_ERRORS`. -/
inductive DatabaseError where
  | sqlAlchemy | timeout
deriving DecidableEq

/-- What the service raises of its own. -/
inductive Refusal where
  | userNotFound
  | userBlocked
  /-- `BUDGET_EXCEEDED`, by the user's budget (no scope) or a ceiling's. -/
  | budgetExceeded (scope : Option ScopeType) (blocked : BlockedAxis) (newRequest : Bool)
      (reservedOutputTokens : Option ℤ)
  /-- `SpendCeilingExceededError`, and whether another provider may still fit. -/
  | spendCeilingExceeded (scope : ScopeType) (blocked : BlockedAxis) (newRequest : Bool)
      (reservedOutputTokens : Option ℤ) (provider : Bool)
  /-- The `ValueError` of an unknown alignment. -/
  | unknownAlignment

abbrev Db := Server Kind DatabaseError
abbrev Call (α : Type) := Tx DatabaseError Refusal Store α

/-- `except SQLAlchemyError`, which a `TimeoutError` passes. -/
def onSqlAlchemyError {α : Type} (x handler : Call α) : Call α :=
  x.rescue fun
    | .database .sqlAlchemy => some handler
    | _ => none

end Otari.Reservations

import Otari.Support.Grouping
import Otari.Reservations.Ceilings

/-!
# Reservations — Reserve — `reserve_budget`

The handle, the ledger and the reserve path of `services/budgets/_reservations.py` and
`_ledger.py`.  A request's ceilings are held first, each in a transaction of its own.  The hold on
the user's row commits with the row of the ledger that records every hold.

The estimate is in dollars, and `Request.price` is what the price lookup answers of the model, none
for the errors that lookup takes as not free.
-/

namespace Otari.Reservations
open Transactions Raising Raising.Program

inductive Strategy where
  | forUpdate | cas | disabled
deriving DecidableEq

structure ReservationHandle where
  userId : ℕ
  estimate : ℚ
  reserved : Bool
  strategy : Strategy
  countsTowardBudget : Bool := true
  scopedBudgets : List ApplicableBudget := []
  scopedEstimate : ℚ := 0
  tokenEstimate : ℤ := 0
  scopedTokenEstimate : ℤ := 0
  requestEstimate : ℤ := 0
  scopedRequestEstimate : ℤ := 0
  reservationId : Option ℕ := none
  reservationTtlSec : ℤ
  scopeCeilings : List ApplicableCeiling

def ReservationHandle.scopedBudgetIds (h : ReservationHandle) : List ℕ :=
  h.scopedBudgets.map ApplicableBudget.id

def defaultReservationTtlSec : ℤ := 900
def maxCountLimit : ℤ := 10 ^ 15

structure Request where
  userId : ℕ
  estimate : ℚ
  /-- Whether the model is free by the price list, where a model is named. -/
  price : Option (Option Bool)
  estimatedTokens : ℤ := 0
  requests : ℤ := 1
  newRequest : Bool := true
  strategy : Strategy := .forUpdate
  countsTowardBudget : Bool := true
  scope : Option BudgetScopeRequest := none
  modelIsFree : Option Bool := none
  reservationTtlSec : ℤ := defaultReservationTtlSec
  recordReservation : Bool := true
  reservedOutputTokens : Option ℤ := none

variable (db : Db)

/-! ### The ledger -/

/-- `record`: the row for holds that have been taken, and its id.  None where nothing is held. -/
def record (userId : ℕ) (userReserved : Bool) (userHeld : HeldAmounts)
    (scopedBudgets : List ApplicableBudget) (ceilingHeld : HeldAmounts) (ttl : ℤ) :
    Call (Option ℕ) :=
  if userReserved = false ∧ scopedBudgets = [] then pure none
  else do
    let now ← now db
    let id ← statement db .record fun s => (s.freshId, s.addReservation
      { id := s.freshId, userId, userReserved
        userHeld := (if userReserved then userHeld else { userHeld with requests := 0 }).bind
        status := .active
        expiresAt := now + ttl
        lines := scopedBudgets.map fun b => (b.id, ceilingHeld.bind) })
    return some id

/-- `release_unrecorded`: give the ceilings' holds back unless the row is there, and whether they
were.  A released row under the id fences the two. -/
def releaseUnrecorded (id userId : ℕ) (scopedIds : List ℕ) (h : HeldAmounts) : Call Bool := do
  deferCommitFlush db .giveBack
  let now ← now db
  let inserted ← statement db .giveBack fun s =>
    if (s.reservation? id).isSome then (false, s)
    else (true, s.addReservation ⟨id, userId, false, ⟨0, 0, 0⟩, .released, now, []⟩)
  if inserted then do
    releaseUncommitted db .giveBack scopedIds h
    commit db .giveBack
    return true
  else do
    rollback db .giveBack
    return false

/-- What the lines of a row hold, by amounts: the ceilings of each. -/
def byAmounts (lines : List (ℕ × Held)) : List (Held × List ℕ) :=
  (Grouping.groupBy Prod.snd (lines.filter fun line => line.2.read.Some)).map fun g =>
    (g.1, g.2.map Prod.fst)

def releaseLines : List (Held × List ℕ) → Call Unit
  | [] => pure ()
  | (held, ids) :: rest => do
    releaseUncommitted db .reclaim ids held.read
    releaseLines rest

/-- `_release_holds`: return every hold one reclaimed row placed. -/
def releaseReclaimed (r : Reservation) : Call Unit := do
  let lines ← query db .reclaim fun s => ((s.reservation? r.id).map Reservation.lines).getD []
  (if r.userReserved = true ∧ r.userHeld.read.Some then
    execute db .reclaim fun s => s.releaseUser r.userId r.userHeld.read
  else pure ())
  releaseLines db (byAmounts lines)

/-- `_reclaim`: expire and release each leaked hold, each in one transaction. -/
def reclaim : List Reservation → Call Unit
  | [] => pure ()
  | r :: rest => do
    deferCommitFlush db .reclaim
    let won ← statement db .reclaim fun s => s.transition r.id .active .expired
    (if won then releaseReclaimed db r else pure ())
    commit db .reclaim
    reclaim rest

def reclaimExpiredForUser (userId : ℕ) : Call Unit := do
  let now ← now db
  let expired ← query db .reclaim fun s => s.listExpired userId now 20
  reclaim db expired

/-! ### The user's row -/

/-- `_cas_reset_user_budget`. -/
def casResetUserBudget (userId : ℕ) (user : User) (budget : BudgetRow) (instant : ℤ) : Call User :=
  match budget.periodWindow instant with
  | .error _ => raise (.raised .unknownAlignment)
  | .ok window => do
    deferCommitFlush db .roll
    let rolled ← statement db .roll fun s =>
      s.resetUser userId instant (window.elim instant Prod.fst) (window.map Prod.snd)
    if rolled then do
      onSqlAlchemyError (commit db .roll) do
        rollback db .roll
        raise (.database .sqlAlchemy)
      let refreshed ← query db .lookup fun s => s.activeUser userId
      return refreshed.getD user
    else do
      commit db .roll
      let refreshed ← query db .lookup fun s => s.users userId
      return refreshed.getD user

def resetDue (userId : ℕ) (user : User) (budget : Option BudgetRow) : Call User :=
  match budget with
  | none => pure user
  | some b => do
    let now ← now db
    if periodEnded now user.nextBudgetResetAt then casResetUserBudget db userId user b now
    else pure user

/-- `_is_model_free`. -/
def isModelFree (price : Option Bool) : Call Bool :=
  onSqlAlchemyError (query db .price fun _ => price.getD false) (pure false)

/-- `_hold_on_user`: the per-user hold, giving the ceilings' holds back if the database fails it. -/
def holdOnUser (userId : ℕ) (guards : Usage → List (Axis × Truth))
    (scopedBudgets : List ApplicableBudget) (h : HeldAmounts) : Call Bool :=
  onDatabaseError
    (do
      deferCommitFlush db .userHold
      statement db .userHold fun s => s.holdUser userId guards h)
    fun e => do
      suppress do
        rollback db .giveBack
        release db .giveBack (scopedBudgets.map ApplicableBudget.id) h
      raise (.database e)

/-! ### Handles -/

/-- What a reservation holds, and what its handle is made of. -/
structure Taken where
  userId : ℕ
  userReserved : Bool
  userHeld : HeldAmounts
  strategy : Strategy
  scopedBudgets : List ApplicableBudget
  ceilingHeld : HeldAmounts
  ceilings : List ApplicableCeiling
  ttl : ℤ

def Taken.handle (t : Taken) (reservationId : Option ℕ) : ReservationHandle where
  userId := t.userId
  estimate := t.userHeld.amount
  reserved := t.userReserved
  strategy := t.strategy
  scopedBudgets := t.scopedBudgets
  scopedEstimate := t.ceilingHeld.amount
  tokenEstimate := t.userHeld.tokens
  scopedTokenEstimate := t.ceilingHeld.tokens
  requestEstimate := t.userHeld.requests
  scopedRequestEstimate := t.ceilingHeld.requests
  reservationId := reservationId
  reservationTtlSec := t.ttl
  scopeCeilings := t.ceilings

def Taken.record (t : Taken) : Call (Option ℕ) :=
  Reservations.record db t.userId t.userReserved t.userHeld t.scopedBudgets t.ceilingHeld t.ttl

def Taken.scopedIds (t : Taken) : List ℕ := t.scopedBudgets.map ApplicableBudget.id

/-- What is given back where the commit reported failure: the ceilings' holds, unless the row is
there, or that cannot be told. -/
def Taken.giveBackUnrecorded (t : Taken) : Option ℕ → Call Unit
  | some id =>
    if t.scopedBudgets ≠ [] then
      onDatabaseError
        (releaseUnrecorded db id t.userId t.scopedIds t.ceilingHeld >>= fun _ => pure ())
        fun _ => suppress (rollback db .giveBack)
    else pure ()
  | none => pure ()

/-- `_held_handle` with the user's hold still in this transaction, which commits with its row. -/
def heldHandleUncommitted (t : Taken) (recordReservation : Bool) : Call ReservationHandle := do
  let reservationId ← onDatabaseError
    (if recordReservation then t.record db else pure none)
    fun e => do
      suppress (rollback db .giveBack)
      release db .giveBack t.scopedIds t.ceilingHeld
      raise (.database e)
  onDatabaseError (commit db .record) fun e => do
    suppress (rollback db .giveBack)
    t.giveBackUnrecorded db reservationId
    raise (.database e)
  return t.handle reservationId

def Taken.recordCommitted (t : Taken) : Call (Option ℕ) := do
  let id ← t.record db
  (if id.isSome then commit db .record else pure ())
  return id

/-- The session is left usable, and the holds without a row. -/
def leaveUnrecorded : Call (Option ℕ) := do
  onSqlAlchemyError (rollback db .record) (pure ())
  return none

/-- `_held_handle` of holds that are committed.  A row that cannot be written leaves them without
one. -/
def heldHandleCommitted (t : Taken) (recordReservation : Bool) : Call ReservationHandle := do
  let reservationId ← (if recordReservation then
    onSqlAlchemyError (t.recordCommitted db) (leaveUnrecorded db)
  else pure none)
  return t.handle reservationId

/-! ### Reserving -/

/-- The refusal of the user's budget: the ceilings give their holds back, and the axis is read. -/
def refuseUser (r : Request) (budget : Budget) (ask : Ask) (scopedBudgets : List ApplicableBudget) :
    Call ReservationHandle := do
  commit db .giveBack
  release db .giveBack (scopedBudgets.map ApplicableBudget.id) ask.held
  let user ← query db .lookup fun s => s.activeUser r.userId
  let blocked : BlockedAxis := match user with
    | some u => blockedAxis u.usage budget ask u.nextBudgetResetAt
    | none => { name := .budget }
  raise (.raised (.budgetExceeded none blocked r.newRequest r.reservedOutputTokens))

/-- The holds of a request that takes some: the ceilings', then the user's with the ledger's row. -/
def takeHolds (r : Request) (budget : Option BudgetRow) (scopedBudgets : List ApplicableBudget)
    (ceilings : List ApplicableCeiling) (ask : Ask) : Call ReservationHandle := do
  let refused ← reserve db scopedBudgets ask
  match refused with
  | some refusing => do
    let blocked ← ceilingBlockedAxis db refusing ask
    raise (.raised
      (.budgetExceeded (some refusing.scopeType) blocked r.newRequest r.reservedOutputTokens))
  | none =>
    match budget with
    | none =>
      heldHandleCommitted db ⟨r.userId, false, .nothing, r.strategy, scopedBudgets, ask.held,
        ceilings, r.reservationTtlSec⟩ r.recordReservation
    | some b => do
      let held ← holdOnUser db r.userId (fun usage => userGuards usage b.caps ask) scopedBudgets
        ask.held
      -- With no cap on any axis there is no guard, and a user that is gone is not asked about.
      if held = true ∨ b.caps = ⟨none, none, none⟩ then
        heldHandleUncommitted db ⟨r.userId, true, ask.held, r.strategy, scopedBudgets,
          if scopedBudgets = [] then .nothing else ask.held, ceilings, r.reservationTtlSec⟩
          r.recordReservation
      else refuseUser db r b.caps ask scopedBudgets

/-- What a request asks of every gate, bounded at both ends.  Free asks for no dollars. -/
def Request.ask (r : Request) (free : Bool) : Ask where
  amount := if free then none else some (max r.estimate 0)
  tokens := min (max r.estimatedTokens 0) maxCountLimit
  requests := max r.requests 0
  newRequest := r.newRequest

def Request.empty (r : Request) (ceilings : List ApplicableCeiling) : ReservationHandle where
  userId := r.userId
  estimate := 0
  reserved := false
  strategy := r.strategy
  reservationTtlSec := r.reservationTtlSec
  scopeCeilings := ceilings

/-- The ceilings on the request's scopes, and the budgets among them it must pass. -/
def scopeCeilings (r : Request) : Call (List ApplicableCeiling × List ApplicableBudget) :=
  match r.scope with
  | none => pure ([], [])
  | some scope => do
    let ceilings ← query db .lookup fun s => s.listApplicable scope.ceilingIds
    let scopedBudgets ← rollAndListApplicable db
      (getProviderCeilings ceilings scope.providerInstance)
    return (ceilings, scopedBudgets)

/-- Whether a budget caps tokens or requests. -/
def Budget.capsCounts (b : Budget) : Bool := b.tokenLimit.isSome || b.requestLimit.isSome

/-- Whether the row of a user on a budget holds nothing, so that nothing of theirs leaked. -/
def holdsNothing (user : User) (budget : Option BudgetRow) : Bool :=
  budget.isSome && user.usage.held = ⟨0, 0, 0⟩

/-- Whether the model is free: the caller's answer, or the price list's. -/
def isFree (r : Request) : Call Bool :=
  match r.modelIsFree, r.price with
  | some free, _ => pure free
  | none, some price => isModelFree db price
  | none, none => pure false

/-- The reservation of an enforced request, its user found and not blocked. -/
def reserveEnforced (r : Request) (user : User) (budget : Option BudgetRow) :
    Call ReservationHandle := do
  let user ← resetDue db r.userId user budget
  let (ceilings, scopedBudgets) ← scopeCeilings db r
  if budget.isNone = true ∧ scopedBudgets = [] then pure (r.empty ceilings)
  else do
    let free ← isFree db r
    if free = true ∧ (budget.any fun b => b.caps.capsCounts) = false ∧
        scopedBudgets.any ApplicableBudget.capsCounts = false then
      pure (r.empty ceilings)
    else do
      (if r.recordReservation = true ∧ holdsNothing user budget = false then
        reclaimExpiredForUser db r.userId
      else pure ())
      takeHolds db r budget scopedBudgets ceilings (r.ask free)

def reserveBudget (r : Request) : Call ReservationHandle := do
  let loaded ← query db .lookup fun s => s.activeUserWithBudget r.userId
  match loaded with
  | none => raise (.raised .userNotFound)
  | some (user, budget) =>
    if user.blocked then raise (.raised .userBlocked)
    else if r.countsTowardBudget = false then
      pure { r.empty [] with
        countsTowardBudget := false, reservationTtlSec := defaultReservationTtlSec }
    else if r.strategy = .disabled then
      pure { r.empty [] with reservationTtlSec := defaultReservationTtlSec }
    else reserveEnforced db r user budget

end Otari.Reservations

import Otari.Reservations.Reserve

/-!
# Reservations — TopUps — a reservation grows

`increase_reservation` and `hold_tool_call` of `services/budgets/_reservations.py`, and `grow` of
`_ledger.py`.  The ceilings grow first, each in a transaction of its own, then the user's counter,
and then the row.

A call changes its handle in place, and a caller sees those changes also where it raises.  So a
program here is one over the session and the handle (`Handled`).
-/

namespace Otari.Reservations
open Transactions Raising Raising.Program

/-- A program that may write the handle it is called with. -/
abbrev Handled (α : Type) :=
  Program (Failure DatabaseError Refusal) (Session Store × ReservationHandle) α

def changeHandle (f : ReservationHandle → ReservationHandle) : Handled Unit :=
  update fun p => (p.1, f p.2)

def readHandle : Handled ReservationHandle := Program.read Prod.snd

/-! ### What grows -/

/-- What each leg lacks of a request's new size. -/
structure Growth where
  additional : ℚ
  grownTokens : ℤ
  userAdditional : ℚ
  userGrownTokens : ℤ

/-- The amounts `increase_reservation` computes first. -/
def growthOf (h : ReservationHandle) (estimate : ℚ) (tokens : ℤ) : Growth :=
  let size := max estimate 0
  let sizeTokens := min (max tokens 0) maxCountLimit
  { additional := if h.scopedBudgets ≠ [] then max (size - h.scopedEstimate) 0 else 0
    grownTokens := if h.scopedBudgets ≠ [] then max (sizeTokens - h.scopedTokenEstimate) 0 else 0
    userAdditional := max (size - h.estimate) 0
    userGrownTokens := max (sizeTokens - h.tokenEstimate) 0 }

def Growth.OnCeilings (g : Growth) : Prop := 0 < g.additional ∨ 0 < g.grownTokens

def Growth.OnUser (g : Growth) : Prop := 0 < g.userAdditional ∨ 0 < g.userGrownTokens

instance instDecidableOnCeilings (g : Growth) : Decidable g.OnCeilings :=
  inferInstanceAs (Decidable (_ ∨ _))

instance instDecidableOnUser (g : Growth) : Decidable g.OnUser :=
  inferInstanceAs (Decidable (_ ∨ _))

def Growth.ask (g : Growth) : Ask := ⟨some g.additional, g.grownTokens, 0, false⟩

def ReservationHandle.growCeilings (h : ReservationHandle) (amount : ℚ) (tokens : ℤ) :
    ReservationHandle :=
  { h with
    scopedEstimate := h.scopedEstimate + amount
    scopedTokenEstimate := h.scopedTokenEstimate + tokens }

def ReservationHandle.growUser (h : ReservationHandle) (amount : ℚ) (tokens : ℤ) :
    ReservationHandle :=
  { h with estimate := h.estimate + amount, tokenEstimate := h.tokenEstimate + tokens }

/-! ### Statements -/

namespace Store

/-- The first UPDATE of `ReservationRepository.grow`, and whether the row was active. -/
def growReservation (s : Store) (id : ℕ) (userDelta : ℚ) (tokenDelta : ℤ) (userGrew : Bool) :
    Bool × Store :=
  if s.isActive id then
    (true, s.updateReservation id fun r =>
      if r.status = .active then
        { r with
          userHeld := ⟨r.userHeld.amount + bindUsd userDelta, r.userHeld.tokens + tokenDelta,
            r.userHeld.requests⟩
          userReserved := userGrew || r.userReserved }
      else r)
  else (false, s)

def growLines (s : Store) (id : ℕ) (scopedDelta : ℚ) (scopedTokenDelta : ℤ) : Store :=
  s.updateReservation id fun r =>
    { r with lines := r.lines.map fun line =>
      (line.1, ⟨line.2.amount + bindUsd scopedDelta, line.2.tokens + scopedTokenDelta,
        line.2.requests⟩) }

def returnDelta (s : Store) (userId : ℕ) (amount : ℚ) (tokens : ℤ) : Store :=
  match s.activeUser userId with
  | some _ => s.updateUser userId fun user =>
    { user with usage :=
      { user.usage with
        reserved := clampedSub user.usage.reserved (bindUsd amount)
        reservedTokens :=
          if tokens ≠ 0 then clampedSub user.usage.reservedTokens tokens
          else user.usage.reservedTokens } }
  | none => s

end Store

variable (db : Db)

/-- `ledger.grow`: whether the row is still this request's, or there is none. -/
def ledgerGrow (reservationId : Option ℕ) (g : Growth) (delta : Option ReservationHandle) :
    Call Bool :=
  match reservationId with
  | none => pure true
  | some id => do
    let active ← statement db .grow fun s =>
      s.growReservation id ((delta.map ReservationHandle.estimate).getD 0)
        ((delta.map ReservationHandle.tokenEstimate).getD 0) delta.isSome
    if active then do
      (if g.OnCeilings then
        execute db .grow fun s => s.growLines id g.additional g.grownTokens
      else pure ())
      commit db .grow
      return true
    else pure false

/-! ### `increase_reservation` -/

/-- The ceilings grow, and the handle says so next. -/
def growOnCeilings (g : Growth) : Handled Unit :=
  if g.OnCeilings then do
    let h ← readHandle
    let refused ← onFst (reserve db h.scopedBudgets g.ask)
    match refused with
    | some refusing => do
      let blocked ← onFst (ceilingBlockedAxis db refusing g.ask)
      raise (.raised (.budgetExceeded (some refusing.scopeType) blocked false none))
    | none => changeHandle fun h => h.growCeilings g.additional g.grownTokens
  else pure ()

/-- The request of the user's leg: no scope, and no row of its own. -/
def Growth.userLeg (g : Growth) (h : ReservationHandle) (price : Option (Option Bool))
    (modelIsFree : Option Bool) (strategy : Strategy) : Request where
  userId := h.userId
  estimate := g.userAdditional
  price := price
  estimatedTokens := g.userGrownTokens
  requests := 0
  newRequest := false
  strategy := strategy
  modelIsFree := modelIsFree
  recordReservation := false

/-- The user's leg grows, where the user has a budget: what it took. -/
def growOnUser (g : Growth) (price : Option (Option Bool)) (modelIsFree : Option Bool)
    (strategy : Strategy) : Handled (Option ReservationHandle) :=
  if g.OnUser then do
    let h ← readHandle
    let leg ← onFst (reserveBudget db (g.userLeg h price modelIsFree strategy))
    if leg.reserved then do
      changeHandle fun h =>
        { h.growUser leg.estimate leg.tokenEstimate with reserved := true }
      return some leg
    else pure none
  else pure none

/-- The row was reclaimed: what was taken is given back, and the handle unwound. -/
def unwind (g : Growth) (delta : Option ReservationHandle) : Handled Unit := do
  let h ← readHandle
  (if g.OnCeilings then do
    onFst (release db .giveBack h.scopedBudgetIds ⟨g.additional, g.grownTokens, 0⟩)
    changeHandle fun h => h.growCeilings (-g.additional) (-g.grownTokens)
  else pure ())
  match delta with
  | some leg => do
    onFst (do
      deferCommitFlush db .giveBack
      execute db .giveBack fun s => s.returnDelta h.userId leg.estimate leg.tokenEstimate
      commit db .giveBack)
    changeHandle fun h => h.growUser (-leg.estimate) (-leg.tokenEstimate)
  | none => pure ()

def growRow (g : Growth) (delta : Option ReservationHandle) : Handled Unit := do
  let h ← readHandle
  let grown ← onFst (ledgerGrow db h.reservationId g delta)
  if grown then pure () else unwind db g delta

def increaseReservation (estimate : ℚ) (tokens : ℤ) (price : Option (Option Bool))
    (modelIsFree : Option Bool) (strategy : Strategy) : Handled Unit := do
  let h ← readHandle
  let g := growthOf h estimate tokens
  if ¬ g.OnCeilings ∧ ¬ g.OnUser then pure ()
  else if h.countsTowardBudget = false then pure ()
  else do
    growOnCeilings db g
    let delta ← growOnUser db g price modelIsFree strategy
    if delta.isNone = true ∧ ¬ g.OnCeilings then pure () else growRow db g delta

/-! ### `hold_tool_call` -/

/-- Whether an error is an `HTTPException`. -/
def Refusal.isHttp : Refusal → Bool
  | .unknownAlignment => false
  | _ => true

/-- `try … except HTTPException`. -/
def onHttpException {α : Type} (x handler : Handled α) : Handled α :=
  x.rescue fun
    | .raised refusal => if refusal.isHttp then some handler else none
    | .database _ => none

/-- The top-up, and whether it was refused: the ceilings then give their growth back. -/
def topUpOrGiveBack (before : ReservationHandle) (held : ℚ) (strategy : Strategy) : Handled Bool :=
  onHttpException
    (do
      increaseReservation db (max before.estimate before.scopedEstimate + held) 0 none (some false)
        strategy
      return false)
    (do
      let h ← readHandle
      onFst (releaseUncommitted db .giveBack h.scopedBudgetIds
        ⟨h.scopedEstimate - before.scopedEstimate, 0, 0⟩)
      changeHandle fun h => { h with scopedEstimate := before.scopedEstimate }
      onFst (commit db .giveBack)
      return true)

/-- `hold_tool_call`: what it held, or none where it was refused.  An error of the database leaves
the handle as it was before. -/
def holdToolCall (amount : ℚ) (calls : ℕ) (strategy : Strategy) : Handled (Option ℚ) := do
  let before ← readHandle
  let held := max amount 0 * calls
  rescue
    (do
      let refused ← topUpOrGiveBack db before held strategy
      if refused then pure none
      else do
        onFst (commit db .grow)
        return some held)
    fun
      | .database e => some do
        changeHandle fun _ => before
        raise (.database e)
      | .raised _ => none

end Otari.Reservations

import Otari.Reservations.Reserve

/-!
# Reservations — Moves — a reservation onto the ceilings of a fallback

`services/budgets/_reservation_moves.py`, and `BudgetService.move_reservation` that runs it.  Before a
request goes to another provider, its reservation moves onto that provider's ceilings: an added
ceiling takes the whole hold, a shared one grows to it, and a dropped one gives its hold back, all in
one block of the unit of work.

`Quote` is what the estimate of the candidate comes to.  The handle is a value: a call that raises
leaves it as it was, because `retarget` comes last.  A cancellation in the middle of the block is
left out.
-/

namespace Otari.Reservations
open Transactions Raising Raising.Program

/-- What the request comes to on a candidate: an estimate in whole micro-dollars, the tokens it is
priced at, whether the candidate is free, and the output tokens a refusal may name. -/
structure Quote where
  micros : ℕ
  tokens : ℤ
  free : Bool
  reservedOutputTokens : Option ℤ

/-- `ReservationMove`: what moving a reservation onto the ceilings of a provider changes. -/
structure ReservationMove where
  target : List ApplicableCeiling
  added : List ApplicableCeiling
  shared : List ApplicableBudget
  dropped : List ApplicableBudget
  held : HeldAmounts
  /-- None for a free candidate, whose dollars are neither held nor gated. -/
  gatedAmount : Option ℚ
  reservedOutputTokens : Option ℤ
  reservationId : ℕ
  writesRow : Bool

inductive MoveOutcome where
  | moved
  | reclaimed
  | refused (refusal : Refusal)

/-! ### Planning -/

def ReservationHandle.ceilingHeld (h : ReservationHandle) : HeldAmounts :=
  ⟨h.scopedEstimate, h.scopedTokenEstimate, h.scopedRequestEstimate⟩

/-- What each target ceiling is to hold: no less than the ceilings hold now. -/
def plannedHold (h : ReservationHandle) (quote : Option Quote) : HeldAmounts :=
  if h.scopedBudgets ≠ [] then
    { h.ceilingHeld with
      amount := max (quote.elim h.scopedEstimate fun q => usd q.micros) h.scopedEstimate }
  else
    { amount := quote.elim h.estimate fun q => usd q.micros
      tokens := min (max (quote.elim h.tokenEstimate Quote.tokens) 0) maxCountLimit
      requests := 1 }

/-- `plan`: what the move changes, or none when it changes nothing. -/
def plan (h : ReservationHandle) (provider : Option String) (quote : Option Quote) (newId : ℕ) :
    Option ReservationMove :=
  let target := getProviderCeilings h.scopeCeilings provider
  let targetIds := target.map ApplicableCeiling.id
  let held := plannedHold h quote
  let free := quote.any Quote.free && held.amount = 0
  if h.countsTowardBudget = false ∨ h.strategy = .disabled then none
  else if target = [] ∧ h.scopedBudgets = [] then none
  else if targetIds = h.scopedBudgetIds ∧ held.amount ≤ h.scopedEstimate then none
  else if free = true ∧ target.any (fun c => (toApplicableBudget c).capsCounts) = false then none
  else some
    { target
      added := target.filter fun c => c.id ∉ h.scopedBudgetIds
      shared := h.scopedBudgets.filter fun b => b.id ∈ targetIds
      dropped := h.scopedBudgets.filter fun b => b.id ∉ targetIds
      held
      gatedAmount := if free then none else some held.amount
      reservedOutputTokens := quote.bind Quote.reservedOutputTokens
      reservationId := h.reservationId.getD newId
      writesRow := h.reservationId.isNone && target ≠ [] }

/-! ### Applying -/

/-- A hold on one ceiling that the ceiling can refuse. -/
structure GatedHold where
  budget : ApplicableBudget
  ask : Ask

/-- The holds of a move that a ceiling can refuse, in the order of their ids. -/
def gatedHolds (h : ReservationHandle) (move : ReservationMove) : List GatedHold :=
  let growth := move.held.amount - h.scopedEstimate
  let added := move.added.map fun c => GatedHold.mk (toApplicableBudget c)
    ⟨move.gatedAmount, move.held.tokens, move.held.requests, true⟩
  let grown := if 0 < growth then
      move.shared.map fun b => GatedHold.mk b ⟨some growth, 0, 0, false⟩
    else []
  (added ++ grown).insertionSort fun a b => a.budget.id ≤ b.budget.id

variable (db : Db)

/-- `_refusal`: the error for a hold its ceiling has no room for.  A ceiling on one provider says that
another may still fit. -/
def moveRefusal (hold : GatedHold) (reservedOutputTokens : Option ℤ) : Call Refusal := do
  let usage ← query db .move fun s => s.getUsage hold.budget.id
  return .spendCeilingExceeded hold.budget.scopeType (refusedAxis usage hold.ask)
    hold.ask.newRequest reservedOutputTokens hold.budget.providerKeyId.isSome

/-- The holds taken, given back one by one. -/
def giveBackTaken : List GatedHold → Call Unit
  | [] => pure ()
  | hold :: rest => do
    execute db .move fun s => s.releaseHolds [hold.budget.id] hold.ask.held
    giveBackTaken rest

/-- Take each hold, or give back those taken and say which refused. -/
def takeGated (reservedOutputTokens : Option ℤ) (taken : List GatedHold) :
    List GatedHold → Call (Option Refusal)
  | [] => pure none
  | hold :: rest => do
    let held ← statement db .move fun s => s.holdCeiling hold.budget.id hold.ask
    if held then takeGated reservedOutputTokens (taken ++ [hold]) rest
    else do
      giveBackTaken db taken
      let refusal ← moveRefusal db hold reservedOutputTokens
      return some refusal

/-- `move_lines`: drop lines, set the others to `held`, and add lines holding it. -/
def Store.moveLines (s : Store) (id : ℕ) (dropped added : List ℕ) (held : HeldAmounts) : Store :=
  s.updateReservation id fun r =>
    { r with
      lines := ((r.lines.filter fun line => line.1 ∉ dropped).map fun line => (line.1, held.bind)) ++
        added.map fun id => (id, held.bind) }

/-- The ledger's part of a move: its lines, or the row of a reservation that has none. -/
def recordMove (h : ReservationHandle) (move : ReservationMove) (now : ℤ) : Call Unit :=
  match h.reservationId with
  | some id =>
    execute db .move fun s => s.moveLines id (move.dropped.map ApplicableBudget.id)
      (move.added.map ApplicableCeiling.id) move.held
  | none =>
    if move.writesRow then
      execute db .move fun s => s.addReservation
        { id := move.reservationId
          userId := h.userId
          userReserved := h.reserved
          userHeld := (HeldAmounts.mk h.estimate h.tokenEstimate
            (if h.reserved then h.requestEstimate else 0)).bind
          status := .active
          expiresAt := now + h.reservationTtlSec
          lines := move.target.map fun c => (c.id, move.held.bind) }
    else pure ()

/-- The part of `apply` on a row that is still this request's. -/
def applyHolds (h : ReservationHandle) (move : ReservationMove) : Call MoveOutcome := do
  deferCommitFlush db .move
  execute db .move id -- The ceilings are locked in the order of their ids.
  let now ← now db
  rollEndedWindows db now move.added
  let refused ← takeGated db move.reservedOutputTokens [] (gatedHolds h move)
  match refused with
  | some refusal => pure (.refused refusal)
  | none => do
    (if move.dropped ≠ [] then
      execute db .move fun s =>
        s.releaseHolds (move.dropped.map ApplicableBudget.id) h.ceilingHeld
    else pure ())
    recordMove db h move now
    return .moved

/-- `apply`: take and record the holds of a move, or take none when a ceiling refuses one. -/
def applyMove (h : ReservationHandle) (move : ReservationMove) : Call MoveOutcome :=
  match h.reservationId with
  | some id => do
    let active ← query db .move fun s => s.isActive id
    if active then applyHolds db h move else pure .reclaimed
  | none => applyHolds db h move

/-- Whether the lines of a row are those of a move. -/
def linesMatch (move : ReservationMove) (lines : List (ℕ × Held)) : Bool :=
  (lines.map Prod.fst).toFinset = (move.target.map ApplicableCeiling.id).toFinset &&
    lines.all fun line => line.2.read = move.held

/-- `landed`: whether the ledger records the holds of a move. -/
def landed (h : ReservationHandle) (move : ReservationMove) : Call Bool :=
  if move.writesRow then do
    let now ← now db
    -- A released row under the move's id is the fence: a duplicate when the move's row landed.
    statement db .move fun s =>
      if (s.reservation? move.reservationId).isSome then (true, s)
      else (false, s.addReservation
        ⟨move.reservationId, h.userId, false, ⟨0, 0, 0⟩, .released, now, []⟩)
  else do
    let active ← query db .move fun s => s.isActive move.reservationId
    if active then
      query db .move fun s =>
        linesMatch move ((s.reservation? move.reservationId).map Reservation.lines |>.getD [])
    else pure false

/-- A block of the unit of work: it commits as it ends, and rolls back where it fails. -/
def inBlock {α : Type} (x : Call α) : Call α :=
  onDatabaseError
    (do
      let a ← x
      commit db .move
      return a)
    fun e => do
      suppress (rollback db .move)
      raise (.database e)

/-- `_move_landed`: false also where that cannot be told. -/
def moveLanded (h : ReservationHandle) (move : ReservationMove) : Call Bool :=
  onDatabaseError (inBlock db (landed db h move)) fun _ => pure false

/-- `retarget`: the handle names the ceilings and holds of the move. -/
def retarget (h : ReservationHandle) (move : ReservationMove) : ReservationHandle :=
  { h with
    scopedBudgets := move.target.map toApplicableBudget
    scopedEstimate := if move.target = [] then 0 else move.held.amount
    scopedTokenEstimate := if move.target = [] then 0 else move.held.tokens
    scopedRequestEstimate := if move.target = [] then 0 else move.held.requests
    reservationId := if move.writesRow then some move.reservationId else h.reservationId }

/-- What the move came to: one whose commit reported failure may have landed. -/
def moveOutcome (h : ReservationHandle) (move : ReservationMove) : Call MoveOutcome :=
  onDatabaseError (inBlock db (applyMove db h move)) fun e => do
    let didLand ← moveLanded db h move
    if didLand then pure .moved else raise (.database e)

/-- `move_reservation`: the handle after it. -/
def moveReservation (h : ReservationHandle) (provider : Option String) (quote : Option Quote)
    (newId : ℕ) : Call ReservationHandle :=
  match plan h provider quote newId with
  | none => pure h
  | some move => do
    let outcome ← moveOutcome db h move
    match outcome with
    | .refused refusal => raise (.raised refusal)
    | .moved => pure (retarget h move)
    | .reclaimed => pure (retarget h move)

end Otari.Reservations

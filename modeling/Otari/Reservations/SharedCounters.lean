import Otari.Support.Cell
import Otari.Support.Threads
import Otari.Reservations.Store

/-!
# Reservations — SharedCounters — requests, sweeps and the orphan job, statement by statement

The counters of users and of ceilings and the ledger's rows, as `services/budgets` writes them from
any number of sessions at once: each transaction of `_reservations.py`, `_reservation_moves.py` and
`_ledger.py` as the statements it runs, in its order.  A counter's row is held from the first
statement that writes or locks it to the end of the transaction; a read sees what is committed.

* A hold never reaches a column below zero: every amount is floored before it is bound, and a
  release is clamped.  So amounts are `ℕ`, and a release is `ℕ` subtraction.
* The caps and the recorded use are left out.  Which holds a gate admits is any condition on the row
  (`Gate`), and what a cadence rolls is any list of rows.
* `updated_at` is the clock as Python read it for the statement, before the statement waits.
* `Store.clamps` is a ghost: each counter that the orphan job wrote, with what it found.
-/

namespace Otari.Orphans
open Threads
open Reservations (Axis Status)

/-! ### The store -/

instance instFintypeAxis : Fintype Axis :=
  ⟨{.budget, .token, .request}, fun axis => by cases axis <;> simp⟩

/-- An amount on each axis: micro-dollars, tokens and requests. -/
abbrev Held := Axis → ℕ

instance instDecidableHeldLe (a b : Held) : Decidable (a ≤ b) :=
  inferInstanceAs (Decidable (∀ axis, a axis ≤ b axis))

/-- The row of a user or of a ceiling. -/
inductive Counter where
  | user (userId : ℕ)
  | ceiling (scopedBudgetId : ℕ)
deriving DecidableEq

structure CounterRow where
  held : Held
  updatedAt : Option ℤ

/-- `updated_at IS NULL OR updated_at < cutoff`. -/
def CounterRow.quiet (row : CounterRow) (cutoff : ℤ) : Bool :=
  match row.updatedAt with
  | none => true
  | some at_ => at_ < cutoff

/-- A row of the ledger with its lines. -/
structure Reservation where
  userId : ℕ
  userReserved : Bool
  userHeld : Held
  status : Status
  expiresAt : ℤ
  lines : List (ℕ × Held)

def Reservation.records (r : Reservation) : Counter → Held
  | .user userId =>
    if r.status = .active ∧ r.userId = userId ∧ r.userReserved then r.userHeld else 0
  | .ceiling id =>
    if r.status = .active then ((r.lines.filter (·.1 = id)).map Prod.snd).sum else 0

def Reservation.counters (r : Reservation) : List Counter :=
  .user r.userId :: r.lines.map fun line => .ceiling line.1

/-- One write of the orphan job: the row before and after it, what the active rows recorded on the
counter, and the instant. -/
structure Clamp where
  counter : Counter
  before : CounterRow
  after : CounterRow
  recorded : Held
  now : ℤ

structure Store where
  now : ℤ
  /-- The user exists and is not deleted, or the ceiling exists. -/
  live : Counter → Bool
  counters : Counter → Cell CounterRow
  /-- The rows by id, in the order of their inserts. -/
  reservations : List (Cell (Option Reservation))
  clamps : List Clamp

def recordsOf (row : Option Reservation) (k : Counter) : Held := row.elim 0 (·.records k)

/-- What a view of the rows records on a counter. -/
def Store.recorded (s : Store) (view : Cell (Option Reservation) → Option Reservation)
    (k : Counter) : Held :=
  (s.reservations.map fun cell => recordsOf (view cell) k).sum

inductive Label where
  | statement
  /-- The end of a transaction that wrote this row so that it may hold more. -/
  | commit (row : Option ℕ)

abbrev Run (α : Type) := Prog Label Store α

/-! ### Statements -/

/-- `datetime.now(UTC)`. -/
def clock : Run ℤ := .read .statement fun _ s => s.now

/-- `UPDATE … WHERE` on one counter's row, and whether it matched. -/
def updateCounter (k : Counter) (matched : CounterRow → Bool) (f : CounterRow → CounterRow) :
    Run Bool :=
  .one .statement fun t s =>
    ((s.counters k).updateWhere t (fun row => s.live k && matched row) f).map fun r =>
      (r.1, { s with counters := Function.update s.counters k r.2 })

/-- `UPDATE … WHERE` on one row of the ledger, and whether it matched. -/
def updateReservation (id : ℕ) (matched : Reservation → Bool) (f : Reservation → Reservation) :
    Run Bool :=
  .one .statement fun t s =>
    match s.reservations[id]? with
    | none => some (false, s)
    | some cell =>
      (cell.updateWhere t (fun row => row.any matched) (Option.map f)).map fun r =>
        (r.1, { s with reservations := s.reservations.set id r.2 })

def getReservation (id : ℕ) : Run (Option Reservation) :=
  .read .statement fun t s => (s.reservations[id]?).bind (·.visible t)

/-- `ReservationRepository.add`, and the id of the row. -/
def addReservation (row : Reservation) : Run ℕ :=
  .one .statement fun t s =>
    some (s.reservations.length,
      { s with reservations := s.reservations ++ [⟨none, some (t, some row)⟩] })

def commit (row : Option ℕ) : Run Unit :=
  .one (.commit row) fun t s => some ((),
    { s with
      counters := fun k => (s.counters k).commit t
      reservations := s.reservations.map (·.commit t) })

def rollback : Run Unit :=
  .one .statement fun t s => some ((),
    { s with
      counters := fun k => (s.counters k).rollback t
      reservations := s.reservations.map (·.rollback t) })

/-! ### Holds -/

/-- Which rows a gate admits a hold on. -/
abbrev Gate := CounterRow → Bool

def hold (k : Counter) (h : Held) (gate : Gate) : Run Bool := do
  let stamp ← clock
  updateCounter k gate fun row => ⟨row.held + h, some stamp⟩

def runIf (c : Prop) [Decidable c] (program : Run Unit) : Run Unit :=
  if c then program else pure ()

def giveBack (k : Counter) (h : Held) : Run Unit := do
  let stamp ← clock
  let _ ← updateCounter k (fun _ => true) fun row => ⟨row.held - h, some stamp⟩
  pure ()

/-- Any write of the row that leaves its holds: a window that rolls, spend recorded, an edit. -/
def touch (k : Counter) : Run Unit := giveBack k 0

/-- Give back what is positive.  Nothing positive, nothing written. -/
def release (k : Counter) (h : Held) : Run Unit :=
  runIf (h ≠ 0) (giveBack k h)

def eachCeiling (f : ℕ → Run Unit) : List ℕ → Run Unit
  | [] => pure ()
  | id :: ids => do
    f id
    eachCeiling f ids

/-- `release`, of `_scoped_enforcement.py`, in the caller's transaction. -/
def releaseScoped (ids : List ℕ) (h : Held) : Run Unit :=
  eachCeiling (fun id => release (.ceiling id) h) ids

/-- The same in a transaction of its own, where there is anything to give back. -/
def releaseScopedAndCommit (ids : List ℕ) (h : Held) : Run Unit :=
  runIf (ids ≠ [] ∧ h ≠ 0) do
    releaseScoped ids h
    commit none

/-- `reserve`, of `_scoped_enforcement.py`: one hold a transaction, and all given back once a
ceiling refuses. -/
def reserveScoped (h : Held) (gate : Counter → Gate) (taken : List ℕ) : List ℕ → Run Bool
  | [] => pure true
  | id :: rest => do
    let held ← hold (.ceiling id) h (gate (.ceiling id))
    commit none
    if held then reserveScoped h gate (taken ++ [id]) rest
    else do
      releaseScopedAndCommit taken h
      pure false

/-! ### Requests -/

/-- A reservation as its request keeps it. -/
structure Handle where
  userId : ℕ
  reserved : Bool
  estimate : Held
  scopedBudgets : List ℕ
  scopedEstimate : Held
  reservationId : Option ℕ
  ttl : ℤ

/-- The budget of the user a request bills to: none, one without a cap, or one with a gate. -/
inductive UserBudget where
  | none
  | uncapped
  | capped (gate : Gate)

/-- `ReservationRepository.add` of an active row, with a line holding `ceilingHeld` on each
ceiling. -/
def record (userId : ℕ) (userReserved : Bool) (userHeld : Held) (ceilings : List ℕ)
    (ceilingHeld : Held) (ttl : ℤ) : Run ℕ := do
  let now ← clock
  addReservation
    { userId := userId
      userReserved := userReserved
      userHeld := userHeld
      status := .active
      expiresAt := now + ttl
      lines := ceilings.map fun id => (id, ceilingHeld) }

/-- The user's leg of `reserve_budget`, which stays uncommitted: whether the gate refused it. -/
def holdOnUser (userId : ℕ) (h : Held) : UserBudget → Run Bool
  | .none => pure true
  | .uncapped => do
    let _ ← hold (.user userId) h fun _ => true
    pure true
  | .capped gate => hold (.user userId) h gate

/-- `_held_handle`: the row commits with the user's hold, or after the ceilings' alone. -/
def heldHandle (userId : ℕ) (h : Held) (budget : UserBudget) (scopedBudgets : List ℕ) (ttl : ℤ)
    (recordReservation : Bool) : Run Unit :=
  match budget, recordReservation with
  | .none, true =>
    if scopedBudgets = [] then pure ()
    else do
      let id ← record userId false 0 scopedBudgets h ttl
      commit (some id)
  | .none, false => pure ()
  | .uncapped, true | .capped _, true => do
    let id ← record userId true h scopedBudgets h ttl
    commit (some id)
  | .uncapped, false | .capped _, false => commit none

/-- `reserve_budget`, from its holds on: whether it was admitted. -/
def reserveBudget (userId : ℕ) (h : Held) (gate : Counter → Gate) (budget : UserBudget)
    (scopedBudgets : List ℕ) (ttl : ℤ) (recordReservation : Bool) : Run Bool := do
  let admitted ← reserveScoped h gate [] scopedBudgets
  if admitted then do
    let held ← holdOnUser userId h budget
    if held then do
      heldHandle userId h budget scopedBudgets ttl recordReservation
      pure true
    else do
      commit none
      releaseScopedAndCommit scopedBudgets h
      pure false
  else pure false

/-- `ReservationRepository.grow`: the row and each of its lines. -/
def Reservation.grow (r : Reservation) (userDelta : Held) (userGrew : Bool) (scopedDelta : Held) :
    Reservation :=
  { r with
    userHeld := r.userHeld + userDelta
    userReserved := r.userReserved || userGrew
    lines := r.lines.map fun line => (line.1, line.2 + scopedDelta) }

/-- `grow`, of `_ledger.py`: whether the row was still active. -/
def grow (reservationId : Option ℕ) (userDelta : Held) (userGrew : Bool) (scopedDelta : Held) :
    Run Bool :=
  match reservationId with
  | none => pure true
  | some id => do
    let grown ← updateReservation id (fun r => r.status = .active) fun r =>
      r.grow userDelta userGrew scopedDelta
    if grown then do
      commit (some id)
      pure true
    else pure false

/-- `try_terminate`. -/
def tryTerminate (reservationId : Option ℕ) (status : Status) : Run Bool :=
  match reservationId with
  | none => pure true
  | some id => updateReservation id (fun r => r.status = .active) fun r => { r with status }

/-- `try_settle_reclaimed`. -/
def trySettleReclaimed (reservationId : Option ℕ) : Run Bool :=
  match reservationId with
  | none => pure false
  | some id =>
    updateReservation id (fun r => r.status = .expired) fun r => { r with status := .settled }

/-- The part of `increase_reservation` after the ceilings have grown. -/
def increaseUserLeg (handle : Handle) (additional userAdditional : Held) (gate : Counter → Gate)
    (budget : UserBudget) : Run Unit := do
  let admitted ← (if userAdditional ≠ 0 then
      reserveBudget handle.userId userAdditional gate budget [] handle.ttl false
    else pure true)
  let grew : Bool := userAdditional ≠ 0 ∧ budget matches .uncapped | .capped _
  runIf (admitted ∧ (additional ≠ 0 ∨ grew)) do
    let grown ← grow handle.reservationId (if grew then userAdditional else 0) grew additional
    runIf (¬grown) do
      releaseScopedAndCommit handle.scopedBudgets additional
      runIf grew do
        giveBack (.user handle.userId) userAdditional
        commit none

/-- `increase_reservation`, by what each leg lacks. -/
def increaseReservation (handle : Handle) (additional userAdditional : Held)
    (gate : Counter → Gate) (budget : UserBudget) : Run Unit := do
  let admitted ← (if additional ≠ 0 then
      reserveScoped additional gate [] handle.scopedBudgets
    else pure true)
  runIf admitted (increaseUserLeg handle additional userAdditional gate budget)

/-- What `finish` does with a row it claimed. -/
def giveHoldsBack (handle : Handle) (spends : Bool) : Run Unit := do
  runIf (handle.reserved ∨ spends)
    (giveBack (.user handle.userId) (if handle.reserved then handle.estimate else 0))
  runIf (handle.scopedEstimate ≠ 0 ∨ spends)
    (eachCeiling (fun id => giveBack (.ceiling id) handle.scopedEstimate) handle.scopedBudgets)

/-- `reconcile_reservation` and `refund_reservation`: the row ends, and what the handle holds is
given back.  A row that the sweep reclaimed gives nothing back, and a settlement still records what
it spent. -/
def finish (handle : Handle) (status : Status) (spends : Bool) : Run Unit := do
  let claimed ← tryTerminate handle.reservationId status
  if claimed then do
    giveHoldsBack handle spends
    commit none
  else do
    let late ← (if status = .settled then trySettleReclaimed handle.reservationId else pure false)
    runIf (late ∧ spends) do
      touch (.user handle.userId)
      eachCeiling (fun id => touch (.ceiling id)) handle.scopedBudgets
    commit none

/-! ### Moves -/

/-- What a move changes: the holds it takes on the ceilings it adds and grows on those it shares,
and whether it writes the request's first row. -/
structure ReservationMove where
  added : List ℕ
  shared : List ℕ
  dropped : List ℕ
  held : Held
  growth : Held
  rolls : List ℕ
  gate : Counter → Gate
  writesRow : Bool

/-- The holds of a move that a ceiling can refuse, in the order of the ceilings' ids. -/
def ReservationMove.gated (move : ReservationMove) : List (ℕ × Held) :=
  (move.added.map (·, move.held) ++
    if move.growth = 0 then [] else move.shared.map (·, move.growth)).insertionSort (·.1 ≤ ·.1)

/-- Take the gated holds in turn; once one is refused, those taken are given back. -/
def takeGated (gate : Counter → Gate) (taken : List (ℕ × Held)) : List (ℕ × Held) → Run Bool
  | [] => pure true
  | (id, h) :: rest => do
    let held ← hold (.ceiling id) h (gate (.ceiling id))
    if held then takeGated gate (taken ++ [(id, h)]) rest
    else do
      giveAllBack taken
      pure false
where
  giveAllBack : List (ℕ × Held) → Run Unit
    | [] => pure ()
    | (id, h) :: rest => do
      release (.ceiling id) h
      giveAllBack rest

/-- `SELECT … FOR UPDATE` on a ceiling. -/
def lockCeiling (id : ℕ) : Run Unit := do
  let _ ← updateCounter (.ceiling id) (fun _ => true) fun row => row
  pure ()

/-- `lock_active`, where there is a row. -/
def lockActive (reservationId : Option ℕ) : Run Bool :=
  match reservationId with
  | none => pure true
  | some id => updateReservation id (fun r => r.status = .active) fun r => r

/-- `move_lines`. -/
def Reservation.moveLines (r : Reservation) (dropped added : List ℕ) (held : Held) : Reservation :=
  { r with
    lines := (r.lines.filter (·.1 ∉ dropped)).map (fun line => (line.1, held)) ++
      added.map (·, held) }

/-- `apply`, of `_reservation_moves.py`, and the commit of its block. -/
def applyMove (handle : Handle) (move : ReservationMove) : Run Unit := do
  let active ← lockActive handle.reservationId
  if active then do
    eachCeiling lockCeiling
      ((move.added ++ move.shared ++ move.dropped).insertionSort (· ≤ ·))
    eachCeiling (fun id => touch (.ceiling id)) move.rolls
    let taken ← takeGated move.gate [] move.gated
    if taken then do
      releaseScoped move.dropped handle.scopedEstimate
      match handle.reservationId, move.writesRow with
      | some id, _ => do
        let _ ← updateReservation id (fun _ => true) fun r =>
          r.moveLines move.dropped move.added move.held
        commit (some id)
      | none, true => do
        let id ← record handle.userId handle.reserved handle.estimate
          (move.added ++ move.shared) move.held handle.ttl
        commit (some id)
      | none, false => commit none
    else commit none
  else commit none

/-! ### The sweep -/

/-- `_release_holds` of a reclaimed row, read before it was claimed; its lines are read after. -/
def releaseHolds (id : ℕ) (r : Reservation) : Run Unit := do
  let current ← getReservation id
  runIf r.userReserved (release (.user r.userId) r.userHeld)
  lines (current.elim [] Reservation.lines)
where
  lines : List (ℕ × Held) → Run Unit
    | [] => pure ()
    | (ceiling, h) :: rest => do
      release (.ceiling ceiling) h
      lines rest

/-- `_reclaim`. -/
def reclaim : List (ℕ × Reservation) → Run Unit
  | [] => pure ()
  | (id, r) :: rest => do
    let claimed ← tryTerminate (some id) .expired
    runIf claimed (releaseHolds id r)
    commit none
    reclaim rest

/-- The active rows among these ids whose time has run out. -/
def listExpired (ids : List ℕ) : Run (List (ℕ × Reservation)) :=
  .read .statement fun t s => ids.filterMap fun id =>
    ((s.reservations[id]?).bind (·.visible t)).bind fun r =>
      if r.status = .active ∧ r.expiresAt < s.now then some (id, r) else none

/-- `sweep_expired`, and `reclaim_expired_for_user`, over the ids in the order of the query. -/
def sweepExpired (ids : List ℕ) : Run Unit := do
  let expired ← listExpired ids
  reclaim expired

/-! ### The orphan job -/

/-- `_clamped`: the counters that exceed what the active rows hold, each with that sum. -/
def clamped (counters held : Held) : Axis → Option ℕ :=
  fun axis => if counters axis > held axis then some (held axis) else none

def CounterRow.set (row : CounterRow) (values : Axis → Option ℕ) (stamp : ℤ) : CounterRow :=
  ⟨fun axis => (values axis).getD (row.held axis), some stamp⟩

/-- The re-read of a candidate under its row lock, with the quiet test repeated. -/
def lockQuietHolds (k : Counter) (cutoff : ℤ) : Run (Option Held) :=
  .one .statement fun t s =>
    ((s.counters k).updateWhere t (fun row => s.live k && row.quiet cutoff) fun row => row).map
      fun r => (if r.1 then some r.2.latest.held else none,
        { s with counters := Function.update s.counters k r.2 })

/-- `active_user_held` and `active_ceiling_held`. -/
def activeHeld (k : Counter) : Run Held :=
  .read .statement fun t s => s.recorded (·.visible t) k

def clampHolds (k : Counter) (values : Axis → Option ℕ) : Run Unit := do
  let stamp ← clock
  .one .statement fun t s =>
    ((s.counters k).updateWhere t (fun _ => true) (·.set values stamp)).map fun r => ((),
      { s with
        counters := Function.update s.counters k r.2
        clamps := s.clamps ++
          [⟨k, (s.counters k).latest, r.2.latest, s.recorded Cell.committed k, s.now⟩] })

/-- `_reconcile_user` and `_reconcile_scoped`. -/
def reconcile (k : Counter) (cutoff : ℤ) : Run Bool := do
  let locked ← lockQuietHolds k cutoff
  match locked with
  | none => do
    commit none
    pure false
  | some counters => do
    let held ← activeHeld k
    let values := clamped counters held
    if values ≠ fun _ => none then do
      clampHolds k values
      commit none
      pure true
    else do
      commit none
      pure false

/-- The live counters among these that hold anything and are quiet, as many as a batch takes. -/
def listQuietHeld (order : List Counter) (cutoff : ℤ) (batchSize : ℕ) : Run (List Counter) :=
  .read .statement fun t s =>
    (order.filter fun k =>
      let row := (s.counters k).visible t
      s.live k && decide (row.held ≠ 0) && row.quiet cutoff).take batchSize

/-- Each candidate in turn, counting those moved. -/
def reconcileAll (cutoff : ℤ) : List Counter → Run ℕ
  | [] => pure 0
  | k :: rest => do
    let moved ← reconcile k cutoff
    let more ← reconcileAll cutoff rest
    pure (moved.toNat + more)

/-- `reconcile_orphaned_holds`, over the rows in the order its two scans meet them. -/
def reconcileOrphanedHolds (quietSec : ℤ) (batchSize : ℕ) (users ceilings : List ℕ) :
    Run ℕ := do
  let now ← clock
  let cutoff := now - quietSec * 1000000
  let userIds ← listQuietHeld (users.map .user) cutoff batchSize
  let scopedIds ← listQuietHeld (ceilings.map .ceiling) cutoff batchSize
  commit none
  reconcileAll cutoff (userIds ++ scopedIds)

/-! ### The system -/

inductive Op where
  | reserve (userId : ℕ) (held : Held) (gate : Counter → Gate) (budget : UserBudget)
      (scopedBudgets : List ℕ) (ttl : ℤ)
  | increase (handle : Handle) (additional userAdditional : Held) (gate : Counter → Gate)
      (budget : UserBudget)
  | finish (handle : Handle) (status : Status) (spends : Bool)
  | move (handle : Handle) (move : ReservationMove)
  | sweep (ids : List ℕ)
  | touch (counter : Counter)
  | reconcile (batchSize : ℕ) (users ceilings : List ℕ)

/-- Time passes, or a user or a ceiling that no transaction holds is deleted. -/
inductive Event where
  | tick (elapsed : ℕ)
  | delete (counter : Counter)

/-- A session that fails after some of its acts loses its transaction, and may then give back on
ceilings what it took. -/
structure Failure where
  acts : ℕ
  givesBack : List ℕ
  held : Held

def failing (program : Run Unit) : Option Failure → Run Unit
  | none => program
  | some failure =>
    Prog.cut (do
      rollback
      releaseScopedAndCommit failure.givesBack failure.held) failure.acts program

def ignore {α : Type} (program : Run α) : Run Unit := do
  let _ ← program
  pure ()

def Op.program (quietSec : ℤ) : Op → Run Unit
  | .reserve userId h gate budget scopedBudgets ttl =>
    ignore (reserveBudget userId h gate budget scopedBudgets ttl true)
  | .increase handle additional userAdditional gate budget =>
    increaseReservation handle additional userAdditional gate budget
  | .finish handle status spends => Orphans.finish handle status spends
  | .move handle plan => applyMove handle plan
  | .sweep ids => sweepExpired ids
  | .touch k => do
    Orphans.touch k
    commit none
  | .reconcile batchSize users ceilings =>
    ignore (reconcileOrphanedHolds quietSec batchSize users ceilings)

def Event.step : Event → Store → Option Store
  | .tick elapsed, s => some { s with now := s.now + elapsed }
  | .delete k, s =>
    if (s.counters k).dirty.isSome then none
    else some { s with live := Function.update s.live k false }

def Store.Settled (s : Store) : Prop :=
  (∀ k, (s.counters k).dirty = none) ∧ (∀ cell ∈ s.reservations, cell.dirty = none) ∧
    s.clamps = []

/-- Any number of sessions, each of which may fail anywhere, over any counters and rows. -/
def system (quietSec : ℤ) : System (Op × Option Failure) Event Label Store Unit where
  program := fun op => failing (op.1.program quietSec) op.2
  env := Event.step
  start := Store.Settled

end Otari.Orphans

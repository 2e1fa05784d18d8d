import Otari.Pricing.Rows
import Otari.Support.Threads

/-!
# Pricing — PriceGenerations — the accepted price snapshots of every worker

`services/pricing/generations.py` and what `services/pricing_refresh_service.py` does with it: the
accept of a pending snapshot, the refresh tick, and the load at startup.

A worker is one process: its startup load and then its ticks, one after another, with any number of
accepts beside them.  The commit of an accept is one act, as is each query and each change of the
worker's memory.  `updated_at` is the accept's own, and no two accepts write the same.
-/

namespace Otari.Refresh
open Threads
open Otari.Pricing (Instant)

/-! ### Generations -/

/-- `PriceGeneration`; no instant is `_EARLIEST`. -/
structure PriceGeneration (Index : Type) where
  effectiveAt : Option Instant
  index : Index
  baseline : Bool := false

/-- The generation is in effect at the instant. -/
def PriceGeneration.inEffect {Index : Type} (generation : PriceGeneration Index)
    (asOf : Instant) : Bool :=
  generation.effectiveAt.all fun t => decide (t ≤ asOf)

def PriceGeneration.noLater {Index : Type} (a b : PriceGeneration Index) : Bool :=
  match b.effectiveAt with
  | some t => a.inEffect t
  | none => a.effectiveAt.isNone

/-- `_accepted` and `_complete`. -/
structure Generations (Index : Type) where
  accepted : List (PriceGeneration Index) := []
  complete : Bool := true

def maxResidentGenerations : ℕ := 10

/-- `PRICING_SNAPSHOT_HISTORY_KEEP`. -/
def pricingSnapshotHistoryKeep : ℕ := 30

/-- The last `n` of a list. -/
def takeLast {α : Type} (n : ℕ) (l : List α) : List α := l.drop (l.length - n)

section
variable {Index : Type}

/-- `set_accepted_generations`. -/
def setAcceptedGenerations (generations : List (PriceGeneration Index)) (complete : Bool) :
    Generations Index :=
  let ordered := generations.insertionSort fun a b => a.noLater b = true
  if maxResidentGenerations < ordered.length then
    { accepted := takeLast maxResidentGenerations ordered, complete := false }
  else
    { accepted := ordered, complete := complete }

/-- `add_accepted_generation`. -/
def addAcceptedGeneration (held : Generations Index) (generation : PriceGeneration Index)
    (historyPruned : Bool) : Generations Index :=
  setAcceptedGenerations (held.accepted ++ [generation]) (held.complete && !historyPruned)

/-- `active_timeline`, over the packaged generation. -/
def activeTimeline (bundled : PriceGeneration Index) (held : Generations Index) :
    List (PriceGeneration Index) :=
  if held.accepted.isEmpty then [bundled]
  else if held.complete then { bundled with effectiveAt := none } :: held.accepted
  else held.accepted

/-- `PriceTimeline.select`: the last generation in effect, or a first one that is a baseline. -/
def selectGeneration (timeline : List (PriceGeneration Index)) (asOf : Instant) :
    Option (PriceGeneration Index) :=
  match (timeline.takeWhile (·.inEffect asOf)).getLast? with
  | some generation => some generation
  | none => timeline.head?.filter (·.baseline)

end

/-! ### The database -/

structure HistoryRow (Snapshot : Type) where
  id : ℕ
  acceptedAt : Instant
  snapshot : Snapshot

structure ActiveRow (Snapshot : Type) where
  updatedAt : Instant
  snapshot : Snapshot

/-- The rows of `pricing_snapshots` and of `pricing_snapshot_history`, and the accepts so far. -/
structure Database (Snapshot : Type) where
  pending : Option Snapshot := none
  active : Option (ActiveRow Snapshot) := none
  history : List (HistoryRow Snapshot) := []
  accepts : ℕ := 0

/-- What a snapshot says: its prices, where it can be read, and its digest. -/
structure Reader (Snapshot Digest Index : Type) where
  parse : Snapshot → Option Index
  digest : Snapshot → Digest

section
variable {Snapshot Digest Index : Type}

def newest (history : List (HistoryRow Snapshot)) (limit : ℕ) : List (HistoryRow Snapshot) :=
  (history.insertionSort fun a b => b.acceptedAt ≤ a.acceptedAt).take limit

/-- `_prune_history`. -/
def pruneHistory (history : List (HistoryRow Snapshot)) : List (HistoryRow Snapshot) × Bool :=
  let kept := (newest history pricingSnapshotHistoryKeep).map (·.id)
  if kept.length < pricingSnapshotHistoryKeep then (history, false)
  else (history.filter fun row => decide (row.id ∈ kept), true)

def Database.marker (db : Database Snapshot) : Option Instant := db.active.map (·.updatedAt)

variable [DecidableEq Snapshot] [DecidableEq Digest] (reader : Reader Snapshot Digest Index)

/-- `_build_generations`. -/
def buildGenerations (history : List (HistoryRow Snapshot)) (active : ActiveRow Snapshot) :
    List (PriceGeneration Index) :=
  let rows := history.map fun row => (row.acceptedAt, row.snapshot)
  let rows := if rows.all fun row => decide (row.2 ≠ active.snapshot) then
    rows ++ [(active.updatedAt, active.snapshot)] else rows
  rows.filterMap fun row => (reader.parse row.2).map fun index => ⟨some row.1, index, false⟩

/-- The generations `_apply_persisted_snapshots` sets, where it sets any. -/
def rebuild (active : ActiveRow Snapshot) (rows : List (HistoryRow Snapshot)) :
    Option (Generations Index) :=
  let complete := decide (rows.length ≤ maxResidentGenerations ∧
    rows.length < pricingSnapshotHistoryKeep)
  let generations := buildGenerations reader rows active
  if generations.isEmpty then none else some (setAcceptedGenerations generations complete)

/-- The generations of a worker started from the database. -/
def loadedGenerations (db : Database Snapshot) : Generations Index :=
  match db.active with
  | none => {}
  | some active =>
    (rebuild reader active (newest db.history (maxResidentGenerations + 1))).getD {}

end

/-! ### Workers -/

/-- A worker's memory.  Beside it stand the accept that is between its commit and its marker, with
whether it is added, and what the last completed tick saw as it began. -/
structure Worker (Index : Type) where
  generations : Generations Index := {}
  appliedUpdatedAt : Option Instant := none
  accepting : Option (Instant × Bool) := none
  lastTick : Option (Option Instant) := none

/-- The database and every worker's memory, the `updated_at` values written, the workers that have
started, and the clock. -/
structure PriceState (Snapshot Index : Type) where
  db : Database Snapshot := {}
  workers : ℕ → Worker Index := fun _ => {}
  written : List Instant := []
  started : List ℕ := []
  clock : Instant := 0

inductive Label where
  | commit (worker : ℕ)
  | add
  | readMarker (own : Instant)
  | setMarker
  | start
  | read
  | compare
  | apply (worker : ℕ) (marker : Instant)

/-- What an accept's transaction comes to. -/
inductive Committed (Index : Type) where
  | absent
  | changed
  | invalid
  | accepted (generation : PriceGeneration Index) (historyPruned : Bool)

inductive Answer where
  | nothingPending
  | changed
  | invalid
  | accepted
  | stopped
deriving DecidableEq

section
variable {Snapshot Digest Index : Type}

def PriceState.change (s : PriceState Snapshot Index) (w : ℕ) (f : Worker Index → Worker Index) :
    PriceState Snapshot Index :=
  { s with workers := Function.update s.workers w (f (s.workers w)) }

/-- The rows an accept writes, and whether it pruned. -/
def PriceState.accept (s : PriceState Snapshot Index) (raw : Snapshot) (updatedAt : Instant) :
    PriceState Snapshot Index × Bool :=
  let (history, pruned) := pruneHistory (s.db.history ++ [⟨s.db.accepts, s.clock, raw⟩])
  ({ s with
    db := { pending := none, active := some ⟨updatedAt, raw⟩, history, accepts := s.db.accepts + 1 }
    written := updatedAt :: s.written }, pruned)

variable [DecidableEq Snapshot] [DecidableEq Digest] (reader : Reader Snapshot Digest Index)

/-- The transaction of `confirm_price_refresh`. -/
def commitAccept (w : ℕ) (digest : Option Digest) (updatedAt : Instant) :
    Prog Label (PriceState Snapshot Index) (Committed Index) :=
  .one (.commit w) fun _ s =>
    match s.db.pending with
    | none => some (.absent, s)
    | some raw =>
      if digest.any fun d => decide (d ≠ reader.digest raw) then
        some (.changed, s)
      else
        match reader.parse raw with
        | none => some (.invalid, s)
        | some index =>
          if updatedAt ∈ s.written then none
          else
            let (s', pruned) := s.accept raw updatedAt
            some (.accepted ⟨some s.clock, index, false⟩ pruned,
              s'.change w fun worker => { worker with accepting := some (updatedAt, false) })

def addAccepted (w : ℕ) (own : Instant) (generation : PriceGeneration Index)
    (historyPruned : Bool) : Prog Label (PriceState Snapshot Index) Unit :=
  .one .add fun _ s => some ((), s.change w fun worker => { worker with
    generations := addAcceptedGeneration worker.generations generation historyPruned
    accepting := some (own, true) })

/-- `_active_updated_at`, read for the accept's marker. -/
def readMarker (own : Instant) : Prog Label (PriceState Snapshot Index) (Option Instant) :=
  .read (.readMarker own) fun _ s => s.db.marker

def setMarker (w : ℕ) (marker : Option Instant) : Prog Label (PriceState Snapshot Index) Unit :=
  .one .setMarker fun _ s => some ((), s.change w fun worker => { worker with
    appliedUpdatedAt := marker
    accepting := none })

/-- `confirm_price_refresh`. -/
def confirmPriceRefresh (w : ℕ) (digest : Option Digest) (updatedAt : Instant) :
    Prog Label (PriceState Snapshot Index) Answer := do
  match ← commitAccept reader w digest updatedAt with
  | .absent => return .nothingPending
  | .changed => return .changed
  | .invalid => return .invalid
  | .accepted generation historyPruned =>
    addAccepted w updatedAt generation historyPruned
    let marker ← readMarker updatedAt
    setMarker w marker
    return .accepted

def readActive : Prog Label (PriceState Snapshot Index) (Option (ActiveRow Snapshot)) :=
  .read .read fun _ s => s.db.active

def readHistory : Prog Label (PriceState Snapshot Index) (List (HistoryRow Snapshot)) :=
  .read .read fun _ s => newest s.db.history (maxResidentGenerations + 1)

/-- The worker after a rebuild, by a tick that saw `tick` or by the startup load. -/
def Worker.apply (worker : Worker Index) (active : ActiveRow Snapshot)
    (rows : List (HistoryRow Snapshot)) (tick : Option (Option Instant)) : Worker Index :=
  { worker with
    appliedUpdatedAt := some active.updatedAt
    generations := (rebuild reader active rows).getD worker.generations
    lastTick := tick.or worker.lastTick }

/-- `_apply_persisted_snapshots`. -/
def applyPersistedSnapshots (w : ℕ) (active : ActiveRow Snapshot) (tick : Option (Option Instant)) :
    Prog Label (PriceState Snapshot Index) Unit := do
  let rows ← readHistory
  .one (.apply w active.updatedAt) fun _ s =>
    some ((), s.change w fun worker => worker.apply reader active rows tick)

/-- `load_persisted_price_snapshot`. -/
def loadPersistedPriceSnapshot (w : ℕ) : Prog Label (PriceState Snapshot Index) Unit := do
  match ← readActive with
  | none => return ()
  | some active => applyPersistedSnapshots reader w active none

/-- The test of a tick that has read `updatedAt`: whether there is nothing to apply. -/
def upToDate (w : ℕ) (updatedAt : Option Instant) : Prog Label (PriceState Snapshot Index) Bool :=
  .one .compare fun _ s =>
    if updatedAt = none ∨ updatedAt = (s.workers w).appliedUpdatedAt then
      some (true, s.change w fun worker => { worker with lastTick := some updatedAt })
    else
      some (false, s)

/-- `refresh_price_snapshot`. -/
def refreshPriceSnapshot (w : ℕ) : Prog Label (PriceState Snapshot Index) Unit := do
  let updatedAt ← .read .read fun _ s => s.db.marker
  if ← upToDate w updatedAt then return ()
  match ← readActive with
  | none => return ()
  | some active => applyPersistedSnapshots reader w active (some updatedAt)

def refreshes (w : ℕ) : ℕ → Prog Label (PriceState Snapshot Index) Answer
  | 0 => return .stopped
  | n + 1 => do
    refreshPriceSnapshot reader w
    refreshes w n

def startWorker (w : ℕ) : Prog Label (PriceState Snapshot Index) Unit :=
  .one .start fun _ s =>
    if w ∈ s.started then none else some ((), { s with started := w :: s.started })

/-- What can be run: an accept on a worker, or a worker with its ticks. -/
inductive RefreshOp (Digest : Type) where
  | confirm (worker : ℕ) (digest : Option Digest) (updatedAt : Instant)
  | worker (worker : ℕ) (ticks : ℕ)

/-- What happens beside them: time passes, and a snapshot is left pending. -/
inductive Elsewhere (Snapshot : Type) where
  | tick (seconds : ℕ)
  | pend (snapshot : Snapshot)

def refreshSystem : System (RefreshOp Digest) (Elsewhere Snapshot) Label
    (PriceState Snapshot Index) Answer where
  program
    | .confirm w digest updatedAt => confirmPriceRefresh reader w digest updatedAt
    | .worker w ticks => do
      startWorker w
      loadPersistedPriceSnapshot reader w
      refreshes reader w ticks
  env
    | .tick seconds, s => some { s with clock := s.clock + seconds }
    | .pend snapshot, s => some { s with db := { s.db with pending := some snapshot } }
  start s := s = {}

end

end Otari.Refresh

import Otari.Support.Table
import Otari.Support.Threads
import Otari.Traces.Records

/-!
# Traces — Store — the trace store under any number of replicas

`TraceService` of `services/traces/_service.py` over `repositories/traces/`, and the producers of
trace writes.  Each statement is one act, and the acts of any number of requests, exports, batches,
erasures, sweeps and content deletions interleave.  A transaction holds the rows it wrote until it
commits or rolls back; any of them may fail, or be cancelled, between two statements.

Real time is a count of moments, and each replica reads it on a clock of its own.
-/

namespace Otari.Traces
open Threads

/-- The replicas' clocks: each moves forward, and no two differ by more than ten minutes. -/
structure Clocks where
  read : ℕ → ℕ → Instant
  strictMono : ∀ replica, StrictMono (read replica)
  near : ∀ replica replica' moment, read replica moment ≤ read replica' moment + minutes 10

/-- One call of `purge_user`: when it was made, and the time it records. -/
structure Erasure where
  userId : UserId
  moment : ℕ
  erasedAt : Instant
deriving DecidableEq

/-- A write refused, and the time it was judged at. -/
structure Refusal where
  trace : TraceWrite
  writtenAt : Instant
deriving DecidableEq

/-- The database, and what every replica's writer has taken in.  What `TraceWriter._is_erased` keeps one
replica from writing is left out: its own writer then writes less, and another's as much. -/
structure Store where
  now : ℕ
  /-- Who is a member of each workspace now. -/
  members : WorkspaceId → Option UserId → Bool
  traces : Table TraceKey TraceRow
  spans : Table SpanKey SpanRow
  /-- `trace_content_barriers`. -/
  barriers : Table WorkspaceId ℕ
  /-- `trace_user_barriers`. -/
  erasures : Table UserId (Option Instant)
  /-- What the producers have handed to the trace writers. -/
  submitted : List TraceWrite
  /-- The erasures that have begun, those that have committed, and the writes refused: records,
  which no code reads. -/
  begun : List Erasure
  erased : List Erasure
  refusals : List Refusal

/-- The statements that what a run is assumed to do is about. -/
inductive Statement where
  | lockUsers (replica : ℕ) (writtenAt : Instant) (traces : List TraceWrite)
  | erase (erasure : Erasure)
  | clear (ids : List SpanKey)
  | other
deriving DecidableEq

abbrev Run := Prog Statement Store

inductive Answer where
  | done
  | wrote (result : WriteResult)
  /-- `forget_content`: how many spans it cleared; and, as a record, the spans as it was called. -/
  | forgot (cleared : ℕ) (before : SpanKey → Option SpanRow)
  | failed

/-! ### Transactions -/

def Store.commit (s : Store) (t : ℕ) : Store :=
  { s with
    traces := s.traces.commit t
    spans := s.spans.commit t
    barriers := s.barriers.commit t
    erasures := s.erasures.commit t }

def Store.rollback (s : Store) (t : ℕ) : Store :=
  { s with
    traces := s.traces.rollback t
    spans := s.spans.rollback t
    barriers := s.barriers.rollback t
    erasures := s.erasures.rollback t }

def commit : Run Unit :=
  .one .other fun t s => some ((), s.commit t)

/-- The transaction fails, and what called it with it. -/
def rollback : Run Answer :=
  .one .other fun t s => some (.failed, s.rollback t)

/-- `datetime.now(UTC)`. -/
def readClock (clock : Clocks) (replica : ℕ) : Run Instant :=
  .read .other fun _ s => clock.read replica s.now

/-! ### The repositories' statements -/

/-- `UserBarrierRepository.lock`: when each user was erased.  The writes this refuses are put on
record. -/
def lockUsers (replica : ℕ) (writtenAt : Instant) (traces : List TraceWrite) :
    Run (UserId → Option Instant) :=
  .one (.lockUsers replica writtenAt traces) fun t s =>
    let users := usersOf traces
    let erased := fun u => if u ∈ users then (s.erasures.seen t u).getD none else none
    (s.erasures.lock t users none).map fun erasures =>
      (erased, { s with
        erasures := erasures
        refusals := (traces.filter fun trace => refused trace erased writtenAt).map
          (Refusal.mk · writtenAt) ++ s.refusals })

/-- `ContentBarrierRepository.lock`: each workspace's generation. -/
def lockWorkspaces (workspaces : List WorkspaceId) : Run (WorkspaceId → Option ℕ) :=
  .one .other fun t s =>
    (s.barriers.lock t workspaces 0).map fun barriers =>
      (fun w => if w ∈ workspaces then some ((s.barriers.seen t w).getD 0) else none,
        { s with barriers := barriers })

/-- `ContentBarrierRepository.generation`. -/
def generation (workspaceId : WorkspaceId) : Run ℕ :=
  .read .other fun t s => (s.barriers.seen t workspaceId).getD 0

/-- The `UPDATE` of `ContentBarrierRepository.advance`. -/
def nextGeneration (workspaceId : WorkspaceId) : Run Unit :=
  .one .other fun t s =>
    (s.barriers.update t [workspaceId] fun _ g => some (g + 1)).map fun r =>
      ((), { s with barriers := r.2 })

/-- `SessionOwners.members`. -/
def readMembers : Run (WorkspaceId → Option UserId → Bool) :=
  .read .other fun _ s => s.members

/-- `TraceRepository.create_absent`. -/
def createAbsent (rows : List (TraceKey × TraceRow)) : Run Unit :=
  .one .other fun t s =>
    (s.traces.insertNew t rows).map fun r => ((), { s with traces := r.2 })

/-- `TraceRepository.holders`. -/
def holders (keys : List TraceKey) : Run (TraceKey → Option (Option UserId)) :=
  .read .other fun t s key => if key ∈ keys then (s.traces.seen t key).map TraceRow.userId else none

def SpanKey.trace (key : SpanKey) : TraceKey := (key.1, key.2.1)

/-- `SpanRepository.insert_new`: the keys that went in, or none where a span's trace is gone. -/
def insertNew (rows : List (SpanKey × SpanRow)) : Run (Option (List SpanKey)) :=
  .one .other fun t s =>
    (s.spans.insertNew t rows).bind fun r =>
      let references := r.1.map fun key => (s.traces.row (SpanKey.trace key)).referable t
      if none ∈ references then none
      else if some false ∈ references then some (none, s)
      else some (some r.1, { s with spans := r.2 })

/-- `TraceRepository.add_totals`. -/
def addTotals (grown : List (TraceGrowth × List SpanRecord)) : Run Unit :=
  .one .other fun t s =>
    (s.traces.update t (grown.map fun g => g.1.key) fun key row =>
      some (((grown.find? fun g => g.1.key = key).map fun g => row.grown g.1 g.2).getD row)).map
        fun r => ((), { s with traces := r.2 })

/-- `DELETE FROM traces`, and with each trace its spans: it waits for a transaction that holds one
of the traces, or has put a span in one. -/
def deleteTraces (p : TraceRow → Bool) : Run Unit :=
  .one .other fun t s =>
    let keys := s.traces.select t fun _ row => p row
    (s.traces.update t keys fun _ _ => none).bind fun traces =>
      (s.spans.update t (s.spans.keys.filter fun key => SpanKey.trace key ∈ keys)
        fun _ _ => none).map fun spans =>
          ((), { s with traces := traces.2, spans := spans.2 })

/-- The rows `SpanRepository.clear_content` selects. -/
def selectContent (workspaceId : WorkspaceId) : Run (List SpanKey) :=
  .read .other fun t s =>
    (s.spans.select t fun key row => key.1 = workspaceId ∧ row.contentSealed.isSome).take
      clearContentBatch

/-- The `UPDATE` of `SpanRepository.clear_content`: how many of the rows there still were. -/
def clearSelected (ids : List SpanKey) : Run ℕ :=
  .one (.clear ids) fun t s =>
    (s.spans.update t ids fun _ row => some { row with contentSealed := none }).map fun r =>
      (r.1.length, { s with spans := r.2 })

/-- `purge_user` begins: it reads its clock. -/
def beginErasure (clock : Clocks) (replica : ℕ) (userId : UserId) : Run Erasure :=
  .one .other fun _ s =>
    let erasure : Erasure := ⟨userId, s.now, clock.read replica s.now⟩
    some (erasure, { s with begun := erasure :: s.begun })

/-- The upsert of `UserBarrierRepository.erase`. -/
def lockErased (erasure : Erasure) : Run Unit :=
  .one (.erase erasure) fun t s =>
    (s.erasures.lock t [erasure.userId] none).map fun erasures =>
      ((), { s with erasures := erasures })

/-- The `UPDATE` of `UserBarrierRepository.erase`. -/
def setErasedAt (erasure : Erasure) : Run Unit :=
  .one .other fun t s =>
    (s.erasures.update t [erasure.userId] fun _ _ => some (some erasure.erasedAt)).map fun r =>
      ((), { s with erasures := r.2 })

def commitErasure (erasure : Erasure) : Run Unit :=
  .one .other fun t s => some ((), { s.commit t with erased := erasure :: s.erased })

/-- Whether `forget_erased_before` forgets a row. -/
def forgettable (cutoff : Instant) (erasedAt : Option Instant) : Bool :=
  erasedAt.all (· < cutoff)

/-- The rows the locking `SELECT` of `forget_erased_before` takes, skipping those others hold. -/
def Store.forgettable (s : Store) (t : ℕ) (cutoff : Instant) : List UserId :=
  (((s.erasures.select t fun _ erasedAt => Traces.forgettable cutoff erasedAt).filter
    fun u => ¬(s.erasures.row u).heldByOther t).insertionSort (· ≤ ·)).take forgetBatch

def lockForgettable (cutoff : Instant) : Run (List UserId) :=
  .one .other fun t s =>
    (s.erasures.lock t (s.forgettable t cutoff) none).map fun erasures =>
      (s.forgettable t cutoff, { s with erasures := erasures })

def deleteUsers (users : List UserId) : Run Unit :=
  .one .other fun t s =>
    (s.erasures.update t users fun _ _ => none).map fun r => ((), { s with erasures := r.2 })

/-! ### Taking work in -/

/-- One session's spans, as a producer hands them over. -/
structure Draft where
  traceId : TraceId
  sessionSource : SessionSource
  spans : List SpanRecord

/-- A request, or an export, that is traced: by which path and on which replica it comes, whose it
is, whether it captures content, and what it turns out to hold. -/
structure Work where
  source : Source
  replica : ℕ
  workspaceId : WorkspaceId
  userId : Option UserId
  captures : Bool
  drafts : List Draft

/-- `captured_at`: a request's start and an export's admission; a priced request's cost carries the
time it is recorded at. -/
def Work.capturedAt (work : Work) (admittedAt recordedAt : Instant) : Instant :=
  match work.source with
  | .request => admittedAt
  | .export => admittedAt
  | .priced => recordedAt

def Work.writes (work : Work) (intake : Intake) (capturedAt : Instant)
    (contentGeneration : Option ℕ) : List TraceWrite :=
  work.drafts.map fun draft =>
    { workspaceId := work.workspaceId
      traceId := draft.traceId
      userId := work.userId
      sessionSource := draft.sessionSource
      spans := draft.spans
      capturedAt := capturedAt
      contentGeneration := contentGeneration
      intake := intake }

def readMoment : Run ℕ := .read .other fun _ s => s.now

/-- `TraceWriter.submit`. -/
def submit (writes : List TraceWrite) : Run Unit :=
  .one .other fun _ s => some ((), { s with submitted := s.submitted ++ writes })

def captureGeneration (work : Work) : Run (Option ℕ) :=
  if work.captures then some <$> generation work.workspaceId else pure none

/-- Work is admitted, reads the generation it captures content on, and is recorded. -/
def takeIn (clock : Clocks) (work : Work) : Run Answer := do
  let admitted ← readMoment
  let contentGeneration ← captureGeneration work
  let recorded ← readMoment
  submit (work.writes ⟨work.source, work.replica, admitted⟩
    (work.capturedAt (clock.read work.replica admitted) (clock.read work.replica recorded))
    contentGeneration)
  return .done

/-! ### `TraceService` -/

/-- A batch: any of the writes handed to this replica's writer, a retried one again. -/
def takeBatch (replica : ℕ) (picks : List ℕ) : Run (List TraceWrite) :=
  .read .other fun _ s =>
    (picks.filterMap fun i => s.submitted[i]?).filter fun trace => trace.intake.replica = replica

/-- `write`, from its spans on. -/
def storeSpans (writtenAt : Instant) (keep : TraceWrite → Bool) (kept : List KeptSpan)
    (traces : List TraceWrite) : Option (List SpanKey) → Run Answer
  | none => rollback
  | some inserted => do
    addTotals ((grownOf inserted kept).map fun g => (growth g.1 g.2 writtenAt, g.2))
    commit
    return .wrote (writeResult keep inserted kept traces)

/-- `write`, its rows locked. -/
def writeLocked (writtenAt : Instant) (batch : List (TraceWrite × List (SpanId × Sealed)))
    (erased : UserId → Option Instant) (generations : WorkspaceId → Option ℕ) : Run Answer := do
  let traces := batch.map Prod.fst
  let members ← readMembers
  let newTraces := Distinct.firsts TraceWrite.key
    (traces.filter fun trace => ¬refused trace erased writtenAt)
  createAbsent (newTraces.map fun trace => (trace.key, newTrace trace writtenAt))
  let held ← holders (newTraces.map TraceWrite.key)
  let keep := isKept erased writtenAt held
  let kept := keptSpans keep batch
  let inserted ← insertNew (rowsOf generations members kept)
  storeSpans writtenAt keep kept traces inserted

/-- The workspaces of the writes that hold content. -/
def contentWorkspaces (batch : List (TraceWrite × List (SpanId × Sealed))) : List WorkspaceId :=
  (batch.filter fun entry => entry.2 ≠ []).map fun entry => entry.1.workspaceId

def write (clock : Clocks) (replica : ℕ) (picks : List ℕ) (answer : ℕ → Option String) :
    Run Answer := do
  let traces ← takeBatch replica picks
  let writtenAt ← readClock clock replica
  let batch := sealed answer traces
  let erased ← lockUsers replica writtenAt traces
  let generations ← lockWorkspaces (contentWorkspaces batch)
  writeLocked writtenAt batch erased generations

def purgeUser (clock : Clocks) (replica : ℕ) (userId : UserId) : Run Answer := do
  let erasure ← beginErasure clock replica userId
  lockErased erasure
  setErasedAt erasure
  deleteTraces fun row => row.userId = some userId
  commitErasure erasure
  return .done

/-- `forget_erased_before`, in at most so many rounds. -/
def forgetErasedBefore (cutoff : Instant) : ℕ → Run Answer
  | 0 => rollback
  | rounds + 1 => do
    let users ← lockForgettable cutoff
    if users = [] then do
      commit
      return .done
    else do
      deleteUsers users
      if users.length < forgetBatch then do
        commit
        return .done
      else forgetErasedBefore cutoff rounds

def expireErasures (clock : Clocks) (replica rounds : ℕ) : Run Answer := do
  let now ← readClock clock replica
  forgetErasedBefore (now - erasureMargin - erasureKeptFor) rounds

/-- `delete_expired`. -/
def expired (idleBefore startedBefore : Instant) (row : TraceRow) : Bool :=
  row.lastActivityAt < idleBefore ∨ row.startedAt < startedBefore ∧ row.sessionSource ≠ .none

def expire (idleBefore startedBefore : Instant) : Run Answer := do
  deleteTraces (expired idleBefore startedBefore)
  commit
  return .done

/-- `ContentBarrierRepository.advance`. -/
def advance (workspaceId : WorkspaceId) : Run Unit := do
  let _ ← lockWorkspaces [workspaceId]
  nextGeneration workspaceId

def stopContent (workspaceId : WorkspaceId) : Run Answer := do
  advance workspaceId
  commit
  return .done

/-- The clearing of `forget_content`, in at most so many blocks. -/
def clearContent (workspaceId : WorkspaceId) (before : SpanKey → Option SpanRow) (cleared : ℕ) :
    ℕ → Run Answer
  | 0 => pure .failed
  | blocks + 1 => do
    let ids ← selectContent workspaceId
    let batch ← clearSelected ids
    commit
    if batch < clearContentBatch then return .forgot (cleared + batch) before
    else clearContent workspaceId before (cleared + batch) blocks

def forgetContent (workspaceId : WorkspaceId) (blocks : ℕ) : Run Answer := do
  let before ← .read .other fun _ s => s.spans.get
  advance workspaceId
  commit
  clearContent workspaceId before 0 blocks

/-! ### The system -/

/-- A call.  Each transaction may fail or be cancelled after any number of statements. -/
inductive Op where
  | takeIn (work : Work)
  | write (replica : ℕ) (picks : List ℕ) (answer : ℕ → Option String) (stop : ℕ)
  | purgeUser (replica : ℕ) (userId : UserId) (stop : ℕ)
  | expireErasures (replica rounds stop : ℕ)
  | expire (idleBefore startedBefore : Instant) (stop : ℕ)
  | stopContent (workspaceId : WorkspaceId) (stop : ℕ)
  | forgetContent (workspaceId : WorkspaceId) (blocks stop : ℕ)

def Op.program (clock : Clocks) : Op → Run Answer
  | .takeIn work => Traces.takeIn clock work
  | .write replica picks answer stop => .cut rollback stop (Traces.write clock replica picks answer)
  | .purgeUser replica userId stop => .cut rollback stop (Traces.purgeUser clock replica userId)
  | .expireErasures replica rounds stop =>
    .cut rollback stop (Traces.expireErasures clock replica rounds)
  | .expire idleBefore startedBefore stop =>
    .cut rollback stop (Traces.expire idleBefore startedBefore)
  | .stopContent workspaceId stop => .cut rollback stop (Traces.stopContent workspaceId)
  | .forgetContent workspaceId blocks stop =>
    .cut rollback stop (Traces.forgetContent workspaceId blocks)

inductive Event where
  | tick
  | membership (members : WorkspaceId → Option UserId → Bool)
  | reorder (keys : List SpanKey)

def Event.apply : Event → Store → Option Store
  | .tick, s => some { s with now := s.now + 1 }
  | .membership members, s => some { s with members := members }
  | .reorder keys, s => (s.spans.reorder keys).map fun spans => { s with spans := spans }

/-- The system of some of the calls, from one of some databases. -/
def system (clock : Clocks) (calls : Op → Prop) (start : Store → Prop) :
    System {op : Op // calls op} Event Statement Store Answer where
  program op := op.1.program clock
  env := Event.apply
  start := start

/-- A database between transactions. -/
structure Store.Settled (s : Store) : Prop where
  traces : ∀ k, (s.traces.row k).dirty = none
  spans : ∀ k, (s.spans.row k).dirty = none
  barriers : ∀ k, (s.barriers.row k).dirty = none
  erasures : ∀ k, (s.erasures.row k).dirty = none

def emptyStore : Store where
  now := 0
  members := fun _ _ => false
  traces := .empty
  spans := .empty
  barriers := .empty
  erasures := .empty
  submitted := []
  begun := []
  erased := []
  refusals := []

theorem settled_emptyStore : emptyStore.Settled :=
  ⟨fun _ => rfl, fun _ => rfl, fun _ => rfl, fun _ => rfl⟩

end Otari.Traces

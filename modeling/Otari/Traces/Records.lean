import Otari.Pricing.MeteredPricing
import Otari.Support.Distinct
import Otari.Support.Grouping

/-!
# Traces — Records — what a trace holds, and what a write makes of it

`types/traces.py`, the pure parts of `services/traces/_service.py` and `counted_once` of
`services/traces/_reading.py`.  Of a span there are the fields the store judges and adds up; the
others are stored as they are.  Ids are compared only, so they are numbers, but for the two that
may be empty.
-/

namespace Otari.Traces

/-- A reading of a clock, in microseconds. -/
abbrev Instant := ℤ

abbrev WorkspaceId := ℕ
abbrev UserId := ℕ
abbrev TraceId := ℕ
abbrev SpanId := ℕ

abbrev TraceKey := WorkspaceId × TraceId
abbrev SpanKey := WorkspaceId × TraceId × SpanId

def minutes (n : ℤ) : Instant := n * 60000000

/-- `ERASURE_MARGIN`. -/
def erasureMargin : Instant := minutes 10

/-- `MAX_WRITE_AGE`. -/
def maxWriteAge : Instant := minutes (24 * 60)

/-- `ERASURE_KEPT_FOR`. -/
def erasureKeptFor : Instant := maxWriteAge + minutes 60

/-- `CLEAR_CONTENT_BATCH`. -/
def clearContentBatch : ℕ := 5000

/-- `FORGET_BATCH`. -/
def forgetBatch : ℕ := 5000

/-- `USAGE_OPERATION`. -/
def usageOperation : String := "usage"

/-! ### Records -/

inductive SpanKind where
  | turn | step | llm | tool | routingAttempt | guardrail | mcpConnect | agent | other
deriving DecidableEq

inductive SpanOrigin where
  | gateway | otlp
deriving DecidableEq

inductive SpanOutcome where
  | ok | error | unknown | blocked
deriving DecidableEq

inductive SessionSource where
  | client | harness | otlp | none
deriving DecidableEq

structure SpanRecord where
  spanId : SpanId
  kind : SpanKind
  origin : SpanOrigin
  outcome : SpanOutcome
  operation : Option String := none
  startTime : Option Instant := none
  endTime : Option Instant := none
  recovered : Bool := false
  inputTokens : Option ℤ := none
  outputTokens : Option ℤ := none
  cacheReadTokens : Option ℤ := none
  cacheWriteTokens : Option ℤ := none
  costSnapshot : Option ℚ := none
  requestId : Option String := none
  otelSpanId : Option String := none
  content : List (String × String) := []
deriving DecidableEq

/-- The three paths a write is taken in by. -/
inductive Source where
  /-- `RequestTrace`, a request the gateway serves. -/
  | request
  /-- `record_otlp_export`. -/
  | export
  /-- `record_priced_requests`. -/
  | priced
deriving DecidableEq

/-- How a write was taken in: by which path, on which replica, and at which moment its request was
admitted or its export received.  A record, which no code reads. -/
structure Intake where
  source : Source
  replica : ℕ
  moment : ℕ
deriving DecidableEq

structure TraceWrite where
  workspaceId : WorkspaceId
  traceId : TraceId
  userId : Option UserId
  sessionSource : SessionSource
  spans : List SpanRecord
  capturedAt : Instant
  contentGeneration : Option ℕ
  intake : Intake
deriving DecidableEq

def TraceWrite.key (trace : TraceWrite) : TraceKey := (trace.workspaceId, trace.traceId)

structure WriteResult where
  accepted : ℕ
  duplicate : ℕ
  rejected : ℕ
deriving DecidableEq

/-! ### Totals -/

structure Totals where
  steps : ℕ := 0
  spans : ℕ := 0
  errors : ℕ := 0
  failingErrors : ℕ := 0
  inputTokens : ℤ := 0
  outputTokens : ℤ := 0
  cost : ℚ := 0
deriving DecidableEq

structure TraceGrowth where
  key : TraceKey
  totals : Totals
  earliest : Instant
  latest : Instant

/-- `shared`: whether the span's request id is the id of a call other spans may describe. -/
def SpanRecord.shared (span : SpanRecord) : Bool :=
  span.origin = .otlp ∧ span.requestId.any (· ≠ "") ∧ span.requestId ≠ span.otelSpanId ∧
    span.operation ≠ some usageOperation

/-- `tokens`: how much a span reports. -/
def SpanRecord.tokens (span : SpanRecord) : ℤ ×ₗ ℤ ×ₗ ℤ :=
  toLex (span.inputTokens.getD 0 + span.outputTokens.getD 0,
    toLex (span.cacheReadTokens.getD 0, span.cacheWriteTokens.getD 0))

/-- Of the spans of one call, the first of those that report most. -/
def richest (llm : List SpanRecord) (requestId : Option String) : Option SpanRecord :=
  Select.firstMax SpanRecord.tokens (llm.filter fun span => span.shared ∧ span.requestId = requestId)

/-- `counted_once`. -/
def countedOnce (llm : List SpanRecord) : List SpanRecord :=
  llm.filter fun span => ¬span.shared ∨ richest llm span.requestId = some span

/-- `_span_moment`. -/
def SpanRecord.moment (span : SpanRecord) (writtenAt : Instant) : Instant × Instant :=
  let earliest := (span.startTime.or span.endTime).getD writtenAt
  (earliest, span.endTime.getD earliest)

def earliestOf (spans : List SpanRecord) (writtenAt : Instant) : Instant :=
  (spans.map fun span => (span.moment writtenAt).1).min?.getD writtenAt

def latestOf (spans : List SpanRecord) (writtenAt : Instant) : Instant :=
  (spans.map fun span => (span.moment writtenAt).2).max?.getD writtenAt

def SpanRecord.isError (span : SpanRecord) : Bool :=
  span.outcome = .error ∧ ¬span.recovered

def SpanRecord.isLlm (span : SpanRecord) : Bool := span.kind = .llm

/-- The totals `_growth` adds for these spans. -/
def totalsOf (spans : List SpanRecord) : Totals where
  steps := spans.countP fun span => span.kind = .step
  spans := spans.countP fun span => span.operation ≠ some usageOperation
  errors := spans.countP SpanRecord.isError
  failingErrors := spans.countP fun span => span.isError ∧ span.kind ≠ .tool
  inputTokens := ((countedOnce (spans.filter (·.isLlm))).map fun span => span.inputTokens.getD 0).sum
  outputTokens :=
    ((countedOnce (spans.filter (·.isLlm))).map fun span => span.outputTokens.getD 0).sum
  cost := ((spans.filter (·.isLlm)).map fun span => span.costSnapshot.getD 0).sum

/-- `_growth`. -/
def growth (key : TraceKey) (spans : List SpanRecord) (writtenAt : Instant) : TraceGrowth where
  key := key
  totals := totalsOf spans
  earliest := earliestOf spans writtenAt
  latest := latestOf spans writtenAt

/-! ### Rows -/

/-- A row of `traces`.  `write` is the write that created it and `grownBy` the spans of each growth
of its totals, newest last: records, which no code reads. -/
structure TraceRow where
  userId : Option UserId
  sessionSource : SessionSource
  startedAt : Instant
  lastActivityAt : Instant
  totals : Totals
  write : TraceWrite
  grownBy : List (List SpanRecord)
deriving DecidableEq

/-- `_new_trace`. -/
def newTrace (trace : TraceWrite) (writtenAt : Instant) : TraceRow where
  userId := trace.userId
  sessionSource := trace.sessionSource
  startedAt := earliestOf trace.spans writtenAt
  lastActivityAt := latestOf trace.spans writtenAt
  totals := {}
  write := trace
  grownBy := []

/-- The sum of two totals, as the columns keep it: the cost to the micro-dollar. -/
def Totals.add (a b : Totals) : Totals where
  steps := a.steps + b.steps
  spans := a.spans + b.spans
  errors := a.errors + b.errors
  failingErrors := a.failingErrors + b.failingErrors
  inputTokens := a.inputTokens + b.inputTokens
  outputTokens := a.outputTokens + b.outputTokens
  cost := Metered.quantizeCost (a.cost + b.cost)

/-- `_grown`. -/
def TraceRow.grown (row : TraceRow) (growth : TraceGrowth) (spans : List SpanRecord) : TraceRow :=
  { row with
    totals := row.totals.add growth.totals
    startedAt := if row.startedAt > growth.earliest then growth.earliest else row.startedAt
    lastActivityAt :=
      if row.lastActivityAt < growth.latest then growth.latest else row.lastActivityAt
    grownBy := row.grownBy ++ [spans] }

/-- One span's content, and the row it is sealed for; and, as a record, the write it is of. -/
structure SealItem where
  content : List (String × String)
  workspaceId : WorkspaceId
  traceId : TraceId
  spanId : SpanId
  write : TraceWrite
deriving DecidableEq

/-- A sealed value.  What it opens as is what was sealed. -/
structure Sealed where
  item : SealItem
  text : String
deriving DecidableEq

/-- A row of `trace_spans`; and, as a record, the write it came in. -/
structure SpanRow where
  span : SpanRecord
  contentSealed : Option Sealed
  write : TraceWrite
deriving DecidableEq

/-! ### Sealing -/

/-- What `_seal` asks to have sealed of one write. -/
def TraceWrite.sealItems (trace : TraceWrite) : List SealItem :=
  if trace.contentGeneration.isSome then
    (trace.spans.filter fun span => span.content ≠ []).map fun span =>
      ⟨span.content, trace.workspaceId, trace.traceId, span.spanId, trace⟩
  else []

/-- `SpanContent.seal_many`: a value for each item, or none where it could not be sealed. -/
def sealMany (answer : ℕ → Option String) : List SealItem → List (Option Sealed)
  | [] => []
  | item :: items =>
    (answer 0).map (Sealed.mk item) :: sealMany (fun i => answer (i + 1)) items

/-- `held.setdefault(span_id, value)` for each value that is not none. -/
def heldOf (items : List SealItem) (values : List (Option Sealed)) : List (SpanId × Sealed) :=
  Distinct.firsts Prod.fst
    ((items.zip values).filterMap fun p => p.2.map fun value => (p.1.spanId, value))

/-- The values, taken in turn by the writes they were sealed for. -/
def sealEach : List TraceWrite → List (Option Sealed) → List (TraceWrite × List (SpanId × Sealed))
  | [], _ => []
  | trace :: traces, values =>
    (trace, heldOf trace.sealItems (values.take trace.sealItems.length)) ::
      sealEach traces (values.drop trace.sealItems.length)

/-- `_seal`, each write with what it holds. -/
def sealed (answer : ℕ → Option String) (traces : List TraceWrite) :
    List (TraceWrite × List (SpanId × Sealed)) :=
  sealEach traces (sealMany answer (traces.flatMap TraceWrite.sealItems))

theorem map_fst_sealed (answer : ℕ → Option String) (traces : List TraceWrite) :
    (sealed answer traces).map Prod.fst = traces := by
  suffices ∀ values, (sealEach traces values).map Prod.fst = traces from this _
  induction traces with
  | nil => intro; rfl
  | cons trace traces ih =>
    intro values
    rw [sealEach, List.map_cons, ih]

/-! ### Judging a write -/

def usersOf (traces : List TraceWrite) : List UserId := traces.filterMap TraceWrite.userId

/-- `_erased_since`. -/
def erasedSince (trace : TraceWrite) (erased : UserId → Option Instant) : Bool :=
  (trace.userId.bind erased).any fun at_ => trace.capturedAt < at_ + erasureMargin

/-- `_refused`. -/
def refused (trace : TraceWrite) (erased : UserId → Option Instant) (writtenAt : Instant) : Bool :=
  writtenAt - trace.capturedAt > maxWriteAge ∨ erasedSince trace erased

/-- `_current`. -/
def current (trace : TraceWrite) (generations : WorkspaceId → Option ℕ) : Bool :=
  trace.contentGeneration.isSome ∧ generations trace.workspaceId = trace.contentGeneration

/-- `_unique_spans`. -/
def uniqueSpans (spans : List SpanRecord) : List SpanRecord :=
  Distinct.firsts SpanRecord.spanId spans

/-- One span of a write that is kept, with what its write holds. -/
structure KeptSpan where
  trace : TraceWrite
  held : List (SpanId × Sealed)
  span : SpanRecord

def KeptSpan.key (k : KeptSpan) : SpanKey := (k.trace.workspaceId, k.trace.traceId, k.span.spanId)

/-- Whether a write is kept: it is not refused, and its trace is its user's. -/
def isKept (erased : UserId → Option Instant) (writtenAt : Instant)
    (holders : TraceKey → Option (Option UserId)) (trace : TraceWrite) : Bool :=
  ¬refused trace erased writtenAt ∧ holders trace.key = some trace.userId

def keptSpans (keep : TraceWrite → Bool) (batch : List (TraceWrite × List (SpanId × Sealed))) :
    List KeptSpan :=
  batch.flatMap fun entry =>
    if keep entry.1 then (uniqueSpans entry.1.spans).map (KeptSpan.mk entry.1 entry.2) else []

def rejectedCount (keep : TraceWrite → Bool) (traces : List TraceWrite) : ℕ :=
  (traces.map fun trace => if keep trace then 0 else (uniqueSpans trace.spans).length).sum

/-- `_span_values`, with the content of a write that is current and whose user is a member. -/
def KeptSpan.row (k : KeptSpan) (generations : WorkspaceId → Option ℕ)
    (members : WorkspaceId → Option UserId → Bool) : SpanRow where
  span := k.span
  contentSealed :=
    if current k.trace generations ∧ members k.trace.workspaceId k.trace.userId then
      (k.held.find? fun p => p.1 = k.span.spanId).map Prod.snd
    else none
  write := k.trace

/-- The rows to insert: `rows.setdefault` for each span kept. -/
def rowsOf (generations : WorkspaceId → Option ℕ) (members : WorkspaceId → Option UserId → Bool)
    (kept : List KeptSpan) : List (SpanKey × SpanRow) :=
  (Distinct.firsts KeptSpan.key kept).map fun k => (k.key, k.row generations members)

/-- `grown`: the spans that were new, by trace. -/
def grownOf (inserted : List SpanKey) (kept : List KeptSpan) :
    List (TraceKey × List SpanRecord) :=
  (Grouping.groupBy (fun k : KeptSpan => k.trace.key) (Distinct.claim KeptSpan.key inserted kept)).map
    fun g => (g.1, g.2.map KeptSpan.span)

def acceptedCount (inserted : List SpanKey) (kept : List KeptSpan) : ℕ :=
  (Distinct.claim KeptSpan.key inserted kept).length

def writeResult (keep : TraceWrite → Bool) (inserted : List SpanKey) (kept : List KeptSpan)
    (traces : List TraceWrite) : WriteResult where
  accepted := acceptedCount inserted kept
  duplicate := kept.length - acceptedCount inserted kept
  rejected := rejectedCount keep traces

theorem of_mem_keptSpans {keep : TraceWrite → Bool}
    {batch : List (TraceWrite × List (SpanId × Sealed))} {k : KeptSpan}
    (h : k ∈ keptSpans keep batch) :
    (k.trace, k.held) ∈ batch ∧ keep k.trace = true ∧ k.span ∈ uniqueSpans k.trace.spans := by
  obtain ⟨entry, hentry, hk⟩ := List.mem_flatMap.mp h
  split at hk
  · rename_i hkeep
    obtain ⟨span, hspan, rfl⟩ := List.mem_map.mp hk
    exact ⟨hentry, hkeep, hspan⟩
  · cases hk

theorem of_mem_rowsOf {generations : WorkspaceId → Option ℕ}
    {members : WorkspaceId → Option UserId → Bool} {kept : List KeptSpan} {p : SpanKey × SpanRow}
    (h : p ∈ rowsOf generations members kept) :
    ∃ k ∈ kept, p = (k.key, k.row generations members) := by
  obtain ⟨k, hk, rfl⟩ := List.mem_map.mp h
  exact ⟨k, Distinct.mem_of_mem_firsts hk, rfl⟩

end Otari.Traces

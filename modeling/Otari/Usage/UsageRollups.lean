import Mathlib
import Otari.Support.Grouping

/-!
# Usage — UsageRollups — a window's rows, or an hour's sums where they are current

`repositories/usage/usage_rollup_repository` and the reads of `usage_summary_repository` over it.
The trigger marks the hours a write touched, the refresh rebuilds them statement by statement in one
transaction, and `rows` chooses what a read takes from the rollups.  An aggregate runs in a later
statement than the one that read the marks, so it is given its own store (`UsageRows.select`).

An instant is its microseconds, in UTC.  Amounts and counts are exact here; a tool's spend is a
float sum in the source.  The labels of a group and the order of a ranking are functions of the
groups and figures, and are left out.
-/

namespace Otari.Usage
open Grouping

/-! ### Usage rows -/

/-- The columns an hour's rollups are grouped by (`KEYS`). -/
structure UsageKeys where
  workspaceId : ℕ
  model : String
  requestedModel : Option String := none
  provider : Option String := none
  endpoint : String
  userId : Option String := none
  apiKeyId : Option String := none
  source : String
  sourceLabel : Option String := none
  policyName : Option String := none
  status : String
  statusCode : Option ℤ := none
deriving DecidableEq

/-- `ROLLUP_TOOLS`. -/
inductive RollupTool where
  | webSearch
  | webFetch
  | codeExecution
deriving DecidableEq

structure ToolMeter where
  billed : Option ℤ := none
  errors : Option ℤ := none
  unitRate : Option ℚ := none

/-- `billing_meters`; the tools' meters sit under one key, which may hold other tools' too. -/
structure BillingMeters where
  totalInputTokens : Option ℤ := none
  completionTokens : Option ℤ := none
  cacheReadTokens : Option ℤ := none
  cacheWriteTokens : Option ℤ := none
  tools : Option (RollupTool → Option ToolMeter) := none

structure UsageLog where
  id : ℕ
  timestamp : ℤ
  keys : UsageKeys
  cost : Option ℚ := none
  promptTokens : Option ℤ := none
  completionTokens : Option ℤ := none
  totalTokens : Option ℤ := none
  cacheReadTokens : Option ℤ := none
  cacheWriteTokens : Option ℤ := none
  cacheWrite1hTokens : Option ℤ := none
  reasoningTokens : Option ℤ := none
  latencyMs : Option ℤ := none
  billingMeters : Option BillingMeters := none

namespace UsageLog
variable (log : UsageLog)

def meter (read : BillingMeters → Option ℤ) : Option ℤ :=
  log.billingMeters.bind read

def billedMeter (read : BillingMeters → Option ℤ) (fallback : Option ℤ) : ℤ :=
  ((log.meter read).or fallback).getD 0

def toolMeter (tool : RollupTool) : Option ToolMeter := do
  let meters ← log.billingMeters
  let tools ← meters.tools
  tools tool

/-- `tool_calls_expr`. -/
def toolCalls (tool : RollupTool) : Option ℤ :=
  (log.toolMeter tool).bind (·.billed)

def toolCost (tool : RollupTool) : Option ℚ :=
  let rate := ((log.toolMeter tool).bind (·.unitRate)).getD 0
  (log.toolCalls tool).map fun calls => calls * rate

/-- `needs_pricing_condition`. -/
def needsPricing : Bool :=
  let tokenMetered := (log.meter (·.totalInputTokens)).isSome
  let toolCharged := (log.billingMeters.bind (·.tools)).isSome
  log.cost.isNone || (toolCharged && !tokenMetered)

end UsageLog

/-! ### What a row contributes -/

/-- A number or NULL, which a sum ignores and which is the sum of none. -/
abbrev Nullable := WithZero ℚ

def nullable : Option ℚ → Nullable
  | none => 0
  | some q => (q : WithZero ℚ)

def nullableInt (n : Option ℤ) : Nullable :=
  nullable (n.map fun n => (n : ℚ))

/-- The least or the greatest of some instants, as a sum. -/
abbrev Earliest := Tropical (WithTop ℤ)
abbrev Latest := Tropical (WithTop ℤᵒᵈ)

def earliest (moment : ℤ) : Earliest :=
  .trop (WithTop.some moment)

def latest (moment : ℤ) : Latest :=
  .trop (WithTop.some (OrderDual.toDual moment))

/-- `_MEASURES`. -/
inductive Measure where
  | cost
  | promptTokens
  | completionTokens
  | totalTokens
  | cacheReadTokens
  | cacheWriteTokens
  | cacheWrite1hTokens
  | reasoningTokens
  | billedInputTokens
  | billedOutputTokens
  | billedCacheReadTokens
  | billedCacheWriteTokens
  | latencyMs
  | latencyCount
  | toolCalls (tool : RollupTool)
  | toolErrors (tool : RollupTool)
  | toolCost (tool : RollupTool)
  | toolRows (tool : RollupTool)

/-- `_row_values`. -/
def rowValues (log : UsageLog) : Measure → Nullable
  | .cost => nullable log.cost
  | .promptTokens => nullableInt log.promptTokens
  | .completionTokens => nullableInt log.completionTokens
  | .totalTokens => nullableInt log.totalTokens
  | .cacheReadTokens => nullableInt log.cacheReadTokens
  | .cacheWriteTokens => nullableInt log.cacheWriteTokens
  | .cacheWrite1hTokens => nullableInt log.cacheWrite1hTokens
  | .reasoningTokens => nullableInt log.reasoningTokens
  | .billedInputTokens => nullableInt (log.billedMeter (·.totalInputTokens) log.promptTokens)
  | .billedOutputTokens => nullableInt (log.billedMeter (·.completionTokens) log.completionTokens)
  | .billedCacheReadTokens => nullableInt (log.billedMeter (·.cacheReadTokens) log.cacheReadTokens)
  | .billedCacheWriteTokens =>
    nullableInt (log.billedMeter (·.cacheWriteTokens) log.cacheWriteTokens)
  | .latencyMs => nullableInt log.latencyMs
  | .latencyCount => nullableInt (if log.latencyMs.isSome then some 1 else some 0)
  | .toolCalls tool => nullableInt (log.toolCalls tool)
  | .toolErrors tool =>
    let errors := (log.toolMeter tool).bind (·.errors)
    nullableInt (if (log.toolCalls tool).isSome then errors else none)
  | .toolCost tool => nullable (log.toolCost tool)
  | .toolRows tool => nullableInt (if (log.toolCalls tool).isSome then some 1 else some 0)

/-- A row of the relation a read aggregates, and a row of `usage_rollups`, whose `ts` is its hour.
The two lists of latencies stand side by side. -/
structure UsageRow where
  keys : UsageKeys
  needsPricing : Bool
  ts : ℤ
  rows : ℕ
  firstAt : Earliest
  lastAt : Latest
  values : Measure → Nullable
  latencies : List (Option ℤ × ℕ)

/-- `_raw`: the row standing for itself. -/
def raw (log : UsageLog) : UsageRow where
  keys := log.keys
  needsPricing := log.needsPricing
  ts := log.timestamp
  rows := 1
  firstAt := earliest log.timestamp
  lastAt := latest log.timestamp
  values := rowValues log
  latencies := [(log.latencyMs, 1)]

/-! ### Hours -/

def hour : ℤ := 3600 * 1000000

/-- `_floor_hour`, and the hour the trigger marks. -/
def floorHour (moment : ℤ) : ℤ :=
  moment / hour * hour

def ceilHour (moment : ℤ) : ℤ :=
  let floor := floorHour moment
  if floor = moment then floor else floor + hour

/-- The next of the sorted hours, the latest span first. -/
def extendSpans (spans : List (ℤ × ℤ)) (next : ℤ) : List (ℤ × ℤ) :=
  match spans with
  | [] => [(next, next + hour)]
  | (start, stop) :: earlier =>
    if stop = next then (start, next + hour) :: earlier
    else (next, next + hour) :: (start, stop) :: earlier

/-- `_spans`. -/
def spans (hours : List ℤ) : List (ℤ × ℤ) :=
  (hours.insertionSort (· ≤ ·)).foldl extendSpans []

def inSpans (moment : ℤ) (spans : List (ℤ × ℤ)) : Bool :=
  spans.any fun span => decide (span.1 ≤ moment ∧ moment < span.2)

/-! ### The tables -/

/-- A row of `usage_rollup_dirty_hours`. -/
structure Mark where
  id : ℕ
  hour : ℤ
deriving DecidableEq

/-- How far the refresh that holds the lock has come, and its own view of the rollups, which no
other transaction writes. -/
inductive Refreshing where
  | took (taken : List Mark) (hours : List ℤ)
  | dropped (taken : List Mark) (hours : List ℤ) (rollups : List UsageRow)
  | built (taken : List Mark) (rollups : List UsageRow)

/-- What is committed, and the refresh under way. -/
structure UsageStore where
  logs : List UsageLog := []
  marks : List Mark := []
  rollups : List UsageRow := []
  nextMark : ℕ := 0
  refreshing : Option Refreshing := none

/-! ### The refresh -/

/-- A row of `by_latency`. -/
structure LatencyRow where
  keys : UsageKeys
  needsPricing : Bool
  hour : ℤ
  latency : Option ℤ
  rows : ℕ
  firstAt : Earliest
  lastAt : Latest
  values : Measure → Nullable

/-- The rows grouped by every key and the latency, so that each distinct latency is counted. -/
def byLatency (logs : List UsageLog) : List LatencyRow :=
  let key := fun log : UsageLog =>
    (log.keys, log.needsPricing, floorHour log.timestamp, log.latencyMs)
  (groupBy key logs).map fun g =>
    { keys := g.1.1
      needsPricing := g.1.2.1
      hour := g.1.2.2.1
      latency := g.1.2.2.2
      rows := g.2.length
      firstAt := (g.2.map fun log => earliest log.timestamp).sum
      lastAt := (g.2.map fun log => latest log.timestamp).sum
      values := fun measure => (g.2.map fun log => rowValues log measure).sum }

/-- Those grouped by the keys alone, which gathers the counts into the hour's lists. -/
def summedByKeys (counted : List LatencyRow) : List UsageRow :=
  (groupBy (fun row => (row.keys, row.needsPricing, row.hour)) counted).map fun g =>
    { keys := g.1.1
      needsPricing := g.1.2.1
      ts := g.1.2.2
      rows := (g.2.map (·.rows)).sum
      firstAt := (g.2.map (·.firstAt)).sum
      lastAt := (g.2.map (·.lastAt)).sum
      values := fun measure => (g.2.map fun row => row.values measure).sum
      latencies := (g.2.filter (·.latency.isSome)).map fun row => (row.latency, row.rows) }

def buildRollups (hours : List ℤ) (logs : List UsageLog) : List UsageRow :=
  summedByKeys (byLatency (logs.filter fun log => inSpans log.timestamp (spans hours)))

/-- Up to `maxHours` of the latest marked hours before `now`'s. -/
def latestHours (marks : List Mark) (maxHours : ℕ) (now : ℤ) : List ℤ :=
  let hours := ((marks.map (·.hour)).filter (· < floorHour now)).dedup
  (hours.insertionSort (· ≥ ·)).take maxHours

/-- What is committed, or a statement of the refresh that has run. -/
inductive Event where
  /-- A transaction that takes away the rows of these ids, and adds these: an update does both. -/
  | write (removed : List ℕ) (added : List UsageLog)
  /-- A refresh, the lock acquired, takes the marks. -/
  | take (maxHours : ℕ) (now : ℤ)
  /-- Its next statement: the hours' rollups dropped, then built, then its commit. -/
  | next
  | rollBack

namespace UsageStore
variable (s : UsageStore)

def touched (removed : List ℕ) (added : List UsageLog) : List ℤ :=
  ((s.logs.filter fun log => log.id ∈ removed) ++ added).map fun log => floorHour log.timestamp

/-- A write, with the marks its trigger adds. -/
def write (removed : List ℕ) (added : List UsageLog) : UsageStore :=
  let hours := (s.touched removed added).dedup
  { s with
    logs := (s.logs.filter fun log => log.id ∉ removed) ++ added
    marks := s.marks ++ hours.zipIdx.map fun h => ⟨s.nextMark + h.2, h.1⟩
    nextMark := s.nextMark + hours.length }

/-- `refresh`: the marks are deleted and returned. -/
def take (maxHours : ℕ) (now : ℤ) : UsageStore :=
  let latest := latestHours s.marks maxHours now
  let taken := s.marks.filter fun mark => mark.hour ∈ latest
  { s with refreshing := some (.took taken (taken.map (·.hour)).dedup) }

def next : Refreshing → UsageStore
  | .took taken hours =>
    -- no hour, nothing to build
    if hours.isEmpty then { s with refreshing := none }
    else
      let kept := s.rollups.filter fun row => row.ts ∉ hours
      { s with refreshing := some (.dropped taken hours kept) }
  | .dropped taken hours rollups =>
    { s with refreshing := some (.built taken (rollups ++ buildRollups hours s.logs)) }
  | .built taken rollups =>
    { s with
      marks := s.marks.filter fun mark => mark ∉ taken
      rollups := rollups
      refreshing := none }

def step : Event → Option UsageStore
  | .write removed added => some (s.write removed added)
  | .take maxHours now => if s.refreshing.isNone then some (s.take maxHours now) else none
  | .next => s.refreshing.map s.next
  | .rollBack => s.refreshing.map fun _ => { s with refreshing := none }

def runUnder (allowed : UsageStore → Event → Bool) (s : UsageStore) :
    List Event → Option UsageStore
  | [] => some s
  | event :: events =>
    if allowed s event then (s.step event).bind fun s' => runUnder allowed s' events else none

def run : List Event → Option UsageStore :=
  s.runUnder fun _ _ => true

end UsageStore

/-! ### Choosing what to read -/

/-- A condition over `usage_logs`: over the key columns alone, a bound of a window, or any other
condition on the timestamp or on a column the rollups do not keep. -/
inductive Condition where
  | onKeys (p : UsageKeys → Bool)
  | since (start : ℤ)
  | before (stop : ℤ)
  | other (p : UsageLog → Bool)

def Condition.holds : Condition → UsageLog → Bool
  | onKeys p, log => p log.keys
  | since start, log => decide (start ≤ log.timestamp)
  | before stop, log => decide (log.timestamp < stop)
  | other p, log => p log

def matching (conditions : List Condition) (logs : List UsageLog) : List UsageLog :=
  logs.filter fun log => conditions.all fun condition => condition.holds log

/-- `_rollup_conditions`. -/
def rollupConditions (start stop : ℤ) : List Condition → Option (List (UsageKeys → Bool))
  | [] => some []
  | .onKeys p :: conditions => (rollupConditions start stop conditions).map (p :: ·)
  | .since bound :: conditions =>
    if bound = start then rollupConditions start stop conditions else none
  | .before bound :: conditions =>
    if bound = stop then rollupConditions start stop conditions else none
  | .other _ :: _ => none

/-- `UsageBucketGrain`. -/
inductive Bucket where
  | fiveMinutes
  | hour
  | day
deriving DecidableEq

/-- `MAX_DIRTY_HOURS`. -/
def maxDirtyHours : ℕ := 48

/-- The query `rows` returns: the rows alone, or the rollups of the whole hours not marked, beside
the rows of the rest. -/
inductive UsageRows where
  | fromRows (conditions : List Condition)
  | mixed (conditions : List Condition) (summed : List (UsageKeys → Bool))
      (wholeStart wholeEnd : ℤ) (marked : List (ℤ × ℤ))

/-- `UsageRollupRepository.rows`, which reads the marks. -/
def rows (postgres : Bool) (s : UsageStore) (conditions : List Condition) (start stop : ℤ)
    (bucket : Bucket) (exact : Bool) : UsageRows :=
  match if exact then none else rollupConditions start stop conditions with
  | none => .fromRows conditions
  | some summed =>
    let wholeStart := ceilHour start
    let wholeEnd := floorHour stop
    let marked := ((s.marks.map (·.hour)).filter fun h => wholeStart ≤ h ∧ h < wholeEnd).dedup
    if bucket = .fiveMinutes || !postgres then .fromRows conditions
    else if wholeEnd ≤ wholeStart then .fromRows conditions
    else if maxDirtyHours < marked.length then .fromRows conditions
    else .mixed conditions summed wholeStart wholeEnd (spans marked)

def UsageRows.select (s : UsageStore) : UsageRows → List UsageRow
  | .fromRows conditions => (matching conditions s.logs).map raw
  | .mixed conditions summed wholeStart wholeEnd marked =>
    (s.rollups.filter fun row => summed.all (· row.keys) &&
      decide (wholeStart ≤ row.ts ∧ row.ts < wholeEnd) && !inSpans row.ts marked) ++
    ((matching conditions s.logs).filter fun log =>
      decide (log.timestamp < wholeStart ∨ wholeEnd ≤ log.timestamp) ||
        inSpans log.timestamp marked).map raw

/-! ### The aggregates -/

/-- `SERVED_HERE_SLUG`. -/
def servedHereSlug : String := "gateway"

/-- `coalesce(…, 0)`. -/
def coalesce : Nullable → ℚ
  | none => 0
  | some q => q

/-- `_summed`, of a column or a case. -/
def summed (value : UsageRow → Nullable) (u : List UsageRow) : ℚ :=
  coalesce (u.map value).sum

def cost (u : List UsageRow) : ℚ := summed (·.values .cost) u

def requests (statusFilter : Option String) (u : List UsageRow) : ℕ :=
  if statusFilter = some "absorbed" then (u.map (·.rows)).sum
  else (u.map fun row => if row.keys.status ≠ "absorbed" then row.rows else 0).sum

def withStatus (status : String) (u : List UsageRow) : ℕ :=
  (u.map fun row => if row.keys.status = status then row.rows else 0).sum

def importedCost (u : List UsageRow) : ℚ :=
  summed (fun row => if row.keys.source ≠ servedHereSlug then row.values .cost
    else ((0 : ℚ) : WithZero ℚ)) u

def billedTokens (u : List UsageRow) : ℚ :=
  summed (·.values .billedInputTokens) u + summed (·.values .billedOutputTokens) u

structure UsageTotals where
  cost : ℚ
  promptTokens : ℚ
  completionTokens : ℚ
  totalTokens : ℚ
  cacheReadTokens : ℚ
  cacheWriteTokens : ℚ
  cacheWrite1hTokens : ℚ
  requestCount : ℕ
  errorCount : ℕ
  avgLatencyMs : Option ℚ
  unpricedRequests : ℕ
  billedInputTokens : ℚ
  billedOutputTokens : ℚ
  absorbedCount : ℕ
  importedCost : ℚ
  reasoningTokens : ℚ
  billedCacheReadTokens : ℚ
  incompleteCount : ℕ
deriving DecidableEq

/-- `UsageSummaryRepository.totals`. -/
def totals (statusFilter : Option String) (u : List UsageRow) : UsageTotals :=
  let counted := fun row : UsageRow => row.keys.status ≠ "absorbed"
  let latencyTotal := summed (fun row => if counted row then row.values .latencyMs else 0) u
  let latencyCount := summed (fun row => if counted row then row.values .latencyCount
    else ((0 : ℚ) : WithZero ℚ)) u
  { cost := cost u
    promptTokens := summed (·.values .promptTokens) u
    completionTokens := summed (·.values .completionTokens) u
    totalTokens := summed (·.values .totalTokens) u
    cacheReadTokens := summed (·.values .cacheReadTokens) u
    cacheWriteTokens := summed (·.values .cacheWriteTokens) u
    cacheWrite1hTokens := summed (·.values .cacheWrite1hTokens) u
    requestCount := requests statusFilter u
    errorCount := withStatus "error" u
    avgLatencyMs := if latencyCount = 0 then none else some (latencyTotal / latencyCount)
    unpricedRequests := (u.map fun row =>
      if row.keys.status = "success" && row.needsPricing then row.rows else 0).sum
    billedInputTokens := summed (·.values .billedInputTokens) u
    billedOutputTokens := summed (·.values .billedOutputTokens) u
    absorbedCount := withStatus "absorbed" u
    importedCost := importedCost u
    reasoningTokens := summed (·.values .reasoningTokens) u
    billedCacheReadTokens := summed (·.values .billedCacheReadTokens) u
    incompleteCount := withStatus "incomplete" u }

/-- The figures of a breakdown's group, its span among them. -/
structure GroupFigures where
  cost : ℚ
  tokens : ℚ
  requests : ℕ
  importedCost : ℚ
  errorCount : ℕ
  cacheReadTokens : ℚ
  firstAt : Earliest
  lastAt : Latest

def groupFigures (statusFilter : Option String) (u : List UsageRow) : GroupFigures where
  cost := cost u
  tokens := billedTokens u
  requests := requests statusFilter u
  importedCost := importedCost u
  errorCount := withStatus "error" u
  cacheReadTokens := summed (·.values .billedCacheReadTokens) u
  firstAt := (u.map (·.firstAt)).sum
  lastAt := (u.map (·.lastAt)).sum

/-- A grouped read: each group of the relation with what is reported of it. -/
def grouped {κ β : Type} [DecidableEq κ] (group : UsageRow → κ) (figures : List UsageRow → β)
    (u : List UsageRow) : List (κ × β) :=
  (groupBy group u).map fun g => (g.1, figures g.2)

/-- `breakdown`, of any dimension over the keys. -/
def breakdown {κ : Type} [DecidableEq κ] (dimension : UsageKeys → κ) (statusFilter : Option String)
    (u : List UsageRow) : List (κ × GroupFigures) :=
  grouped (fun row => dimension row.keys) (groupFigures statusFilter) u

structure UsageToolRow where
  calls : ℚ
  errors : ℚ
  requests : ℚ
  cost : ℚ

def toolUsage (tool : RollupTool) (u : List UsageRow) : UsageToolRow where
  calls := summed (·.values (.toolCalls tool)) u
  errors := summed (·.values (.toolErrors tool)) u
  requests := summed (fun row => if row.keys.status ≠ "absorbed" then row.values (.toolRows tool)
    else ((0 : ℚ) : WithZero ℚ)) u
  cost := summed (·.values (.toolCost tool)) u

def errorsByStatusCode (u : List UsageRow) : List (Option ℤ × ℕ) :=
  grouped (fun row => row.keys.statusCode) (fun g => (g.map (·.rows)).sum)
    (u.filter fun row => row.keys.status = "error")

/-- `bucket_expr`. -/
def bucketStart : Bucket → ℤ → ℤ
  | .fiveMinutes, ts => ts / (300 * 1000000) * (300 * 1000000)
  | .hour, ts => floorHour ts
  | .day, ts => ts / (86400 * 1000000) * (86400 * 1000000)

structure UsageSeriesPoint where
  cost : ℚ
  tokens : ℚ
  requests : ℕ
  errors : ℕ
  inputTokens : ℚ
  cacheReadTokens : ℚ
  cacheWriteTokens : ℚ
  outputTokens : ℚ
  importedCost : ℚ

def seriesPoint (statusFilter : Option String) (u : List UsageRow) : UsageSeriesPoint where
  cost := cost u
  tokens := summed (·.values .totalTokens) u
  requests := requests statusFilter u
  errors := withStatus "error" u
  inputTokens := summed (·.values .billedInputTokens) u
  cacheReadTokens := summed (·.values .billedCacheReadTokens) u
  cacheWriteTokens := summed (·.values .billedCacheWriteTokens) u
  outputTokens := summed (·.values .billedOutputTokens) u
  importedCost := importedCost u

def series (bucket : Bucket) (statusFilter : Option String) (u : List UsageRow) :
    List (ℤ × UsageSeriesPoint) :=
  grouped (fun row => bucketStart bucket row.ts) (seriesPoint statusFilter) u

/-- `grouped_series`: the cells of a bucket and a group, some groups folded into one. -/
def groupedSeries {κ : Type} [DecidableEq κ] (bucket : Bucket) (dimension : UsageKeys → κ)
    (statusFilter : Option String) (u : List UsageRow) :
    List ((ℤ × κ) × (ℚ × ℚ × ℕ × ℚ)) :=
  grouped (fun row => (bucketStart bucket row.ts, dimension row.keys))
    (fun g => (cost g, billedTokens g, requests statusFilter g, importedCost g)) u

/-- The latencies the requests of a group took, with how many took each. -/
def latencyCounts (u : List UsageRow) : List (ℤ × ℕ) :=
  ((u.filter fun row => row.keys.status ≠ "absorbed").flatMap (·.latencies)).filterMap fun entry =>
    entry.1.map fun value => (value, entry.2)

def perValue (entries : List (ℤ × ℕ)) : List (ℤ × ℕ) :=
  (groupBy Prod.fst entries).map fun g => (g.1, (g.2.map Prod.snd).sum)

/-- One group of `_p95_by_group`: the least latency whose running count reaches 95% of the total. -/
def p95 (u : List UsageRow) : Option ℤ :=
  let counts := perValue (latencyCounts u)
  let total := (counts.map Prod.snd).sum
  let reached := fun value => ((counts.filter fun e => e.1 ≤ value).map Prod.snd).sum
  ((counts.filter fun e => total * 95 ≤ reached e.1 * 100).map Prod.fst).min?

/-- `_p95_by_group`. -/
def p95ByGroup {κ : Type} [DecidableEq κ] (dimension : UsageKeys → κ) (u : List UsageRow) :
    List (κ × ℤ) :=
  (groupBy (fun row => dimension row.keys) u).filterMap fun g => (p95 g.2).map fun p => (g.1, p)

/-- The latency at rank `ceil(0.95 * n)` of the requests, as `percentile_disc` ranks the rows. -/
def percentileDisc (logs : List UsageLog) : Option ℤ :=
  let latencies := (logs.filter fun log => log.keys.status ≠ "absorbed").filterMap (·.latencyMs)
  atRank ((latencies.length * 95 + 99) / 100) latencies

/-- `_group_p95`, over the rows themselves. -/
def groupP95 {κ : Type} [DecidableEq κ] (dimension : UsageKeys → κ) (logs : List UsageLog) :
    List (κ × ℤ) :=
  (groupBy (fun log => dimension log.keys) logs).filterMap fun g =>
    (percentileDisc g.2).map fun p => (g.1, p)

/-! ### Equal reports -/

/-- **The reports over a relation are those over the rows themselves.** -/
structure SameReports (bucket : Bucket) (u : List UsageRow) (logs : List UsageLog) : Prop where
  totals : ∀ statusFilter, totals statusFilter u = totals statusFilter (logs.map raw)
  breakdown : ∀ (κ : Type) [DecidableEq κ] (dimension : UsageKeys → κ) statusFilter,
    (breakdown dimension statusFilter u).Perm (breakdown dimension statusFilter (logs.map raw))
  toolUsage : ∀ tool, toolUsage tool u = toolUsage tool (logs.map raw)
  errorsByStatusCode : (errorsByStatusCode u).Perm (errorsByStatusCode (logs.map raw))
  series : ∀ statusFilter,
    (series bucket statusFilter u).Perm (series bucket statusFilter (logs.map raw))
  groupedSeries : ∀ (κ : Type) [DecidableEq κ] (dimension : UsageKeys → κ) statusFilter,
    (groupedSeries bucket dimension statusFilter u).Perm
      (groupedSeries bucket dimension statusFilter (logs.map raw))
  /-- No row is counted twice or left out, whichever keys are asked for. -/
  counted : ∀ p : UsageKeys → Bool,
    ((u.filter fun row => p row.keys).map (·.rows)).sum = logs.countP fun log => p log.keys
  p95ByGroup : ∀ (κ : Type) [DecidableEq κ] (dimension : UsageKeys → κ),
    (p95ByGroup dimension u).Perm (groupP95 dimension logs)

end Otari.Usage

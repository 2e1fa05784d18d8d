import Otari.Support.Raising

/-!
# Streaming — Generator — the shared streaming generator

`streaming.py`: `streaming_generator` with its keep-alives, its terminal buffer and its four
settlement callbacks, over everything it is given (`Source`) and a consumer that may leave wherever
the generator yields or awaits.
-/

namespace Otari.Streaming
open Raising
open Raising.Program

/-- An exception the generator catches, or the consumer leaving (`GeneratorExit`,
`CancelledError`). -/
inductive Exc where
  | error
  | left
deriving DecidableEq

/-- A chunk, by what the functions the generator is given make of it; `none` where one raises.
`formats` is whether it is formatted, and the first-chunk hook called, without an exception, and
`reformats` whether it is when the error path formats what is still buffered. -/
structure Chunk where
  completes : Option Bool := some true
  usage : Option Bool := some false
  carrier : Option Bool := some false
  formats : Bool := true
  reformats : Bool := true
deriving DecidableEq

/-- What comes of waiting for the upstream. -/
inductive Pull where
  | chunk (chunk : Chunk)
  | idle
deriving DecidableEq

inductive Ending where
  | exhausted
  | raised
deriving DecidableEq

/-- What the generator is given: the upstream and how it ends, whether keep-alives are on and a
completion test is set, how many intervals the settlement takes, and which callbacks raise. -/
structure Source where
  pulls : List Pull
  ending : Ending := .exhausted
  keepalive : Bool := false
  checksCompletion : Bool := false
  settlementWaits : ℕ := 0
  completeRaises : Bool := false
  noUsageRaises : Bool := false
  attachRaises : Bool := false
  payloadRaises : Bool := false
  doneOnError : Bool := true
  errorRaises : Bool := false
  incompleteRaises : Bool := false
deriving DecidableEq

inductive Callback where
  | complete
  | noUsage
  | error
  | incomplete
deriving DecidableEq

/-- What is seen of a run: the upstream's end, and the callbacks invoked. -/
inductive Event where
  | exhausted
  | called (callback : Callback)
deriving DecidableEq

/-- The generator's variables, with whether the settlement task is pending, the events so far, and
how many times the consumer could have left. -/
structure Locals where
  hasUsage : Bool := false
  settled : Bool := false
  terminalBuffer : List Chunk := []
  costCarrier : Option Chunk := none
  bufferingTerminal : Bool := false
  completed : Bool
  settling : Bool := false
  events : List Event := []
  points : ℕ := 0
deriving DecidableEq

/-- `_MAX_TERMINAL_BUFFER_CHUNKS`. -/
def maxTerminalBufferChunks : ℕ := 4

section
variable (source : Source) (consumer : ℕ → Bool)

/-- A yield or an await, where the consumer may leave. -/
def pause : Program Exc Locals Unit := do
  let n ← read (·.points)
  update fun s => { s with points := n + 1 }
  if consumer n then raise .left

def attempt (raises : Bool) : Program Exc Locals Unit :=
  if raises then raise .error else pure ()

def answer {α : Type} : Option α → Program Exc Locals α
  | some a => pure a
  | none => raise .error

/-- `except Exception`, logged. -/
def logged (x : Program Exc Locals Unit) : Program Exc Locals Unit :=
  x.rescue fun e => if e = .error then some (pure ()) else none

/-- A settlement callback, which may be left once it is invoked. -/
def invoke (callback : Callback) (raises : Bool) : Program Exc Locals Unit := do
  update fun s => { s with events := s.events ++ [.called callback] }
  pause consumer
  attempt raises

/-- `yield _format_and_mark_first(chunk)` for each chunk. -/
def yieldAll (formats : Chunk → Bool) : List Chunk → Program Exc Locals Unit
  | [] => pure ()
  | chunk :: chunks => do
    attempt (!formats chunk)
    pause consumer
    yieldAll formats chunks

/-- `completed = completes_stream(chunk)`, where there is a completion test. -/
def noteCompletion (chunk : Chunk) : Program Exc Locals Unit :=
  if source.checksCompletion then do
    let completed ← answer chunk.completes
    update fun s => { s with completed := completed }
  else
    pure ()

/-- `chunk_usage = extract_usage(chunk)`, merged where there is any. -/
def noteUsage (chunk : Chunk) : Program Exc Locals Unit := do
  let usage ← answer chunk.usage
  update fun s => { s with hasUsage := s.hasUsage || usage }

/-- A cost carrier is held after what was held before it is yielded; what follows it is held too,
until there is too much of it. -/
def holdOrYield (chunk : Chunk) : Program Exc Locals Unit := do
  let carrier ← answer chunk.carrier
  let buffer ← read (·.terminalBuffer)
  let buffering ← read (·.bufferingTerminal)
  if carrier then
    yieldAll consumer (·.formats) buffer
    update fun s => { s with
      terminalBuffer := [chunk]
      costCarrier := some chunk
      bufferingTerminal := true }
  else if buffering then
    if maxTerminalBufferChunks ≤ buffer.length then
      yieldAll consumer (·.formats) buffer
      update fun s => { s with
        terminalBuffer := []
        costCarrier := none
        bufferingTerminal := false }
      yieldAll consumer (·.formats) [chunk]
    else
      update fun s => { s with terminalBuffer := buffer ++ [chunk] }
  else
    yieldAll consumer (·.formats) [chunk]

def takeChunk (chunk : Chunk) : Program Exc Locals Unit := do
  noteCompletion source chunk
  noteUsage chunk
  holdOrYield consumer chunk

/-- `async for chunk in source`, over `_chunks_or_keepalive`: each wait for the upstream may be
left, and an idle interval yields a keep-alive. -/
def pump : List Pull → Program Exc Locals Unit
  | [] => do
    pause consumer
    attempt (source.ending = .raised)
  | .idle :: pulls => do
    pause consumer
    if source.keepalive then
      pause consumer
    pump pulls
  | .chunk chunk :: pulls => do
    pause consumer
    takeChunk source consumer chunk
    pump pulls

/-- Waiting for the settlement task, with a keep-alive for each interval it takes. -/
def awaitSettlement : ℕ → Program Exc Locals Unit
  | 0 => pause consumer
  | n + 1 => do
    pause consumer
    pause consumer
    awaitSettlement n

/-- `on_complete` where there is usage, in a task where keep-alives are on, and `on_no_usage`
otherwise. -/
def bill (hasUsage : Bool) : Program Exc Locals Unit :=
  if hasUsage then
    if source.keepalive then do
      update fun s => { s with events := s.events ++ [.called .complete], settling := true }
      awaitSettlement consumer source.settlementWaits
      update fun s => { s with settling := false }
      attempt source.completeRaises
    else
      invoke consumer .complete source.completeRaises
  else
    invoke consumer .noUsage source.noUsageRaises

def settle : Program Exc Locals Unit := do
  update fun s => { s with settled := true }
  let hasUsage ← read (·.hasUsage)
  logged (bill source consumer hasUsage)
  logged (attempt source.attachRaises)

def flushBuffer : Program Exc Locals Unit := do
  let buffer ← read (·.terminalBuffer)
  yieldAll consumer (·.formats) buffer
  update fun s => { s with terminalBuffer := [] }
  pause consumer

/-- The `try` block; `aclosing` awaits the source's close however the loop ends. -/
def body : Program Exc Locals Unit := do
  (pump source consumer source.pulls).ensure (pause consumer)
  update fun s => { s with events := s.events ++ [.exhausted] }
  let completed ← read (·.completed)
  attempt (!completed)
  settle source consumer
  flushBuffer consumer

/-- The `except` block. -/
def failed : Program Exc Locals Unit := do
  let buffer ← read (·.terminalBuffer)
  yieldAll consumer (·.reformats) buffer
  update fun s => { s with terminalBuffer := [] }
  attempt source.payloadRaises
  pause consumer
  if source.doneOnError then
    pause consumer
  update fun s => { s with settled := true }
  logged (invoke consumer .error source.errorRaises)

/-- The `finally` block. -/
def cleanup : Program Exc Locals Unit := do
  let settling ← read (·.settling)
  if settling then
    logged do
      pause consumer
      attempt source.completeRaises
  let settled ← read (·.settled)
  if ¬ settled then
    logged (invoke consumer .incomplete source.incompleteRaises)

/-- `streaming_generator`. -/
def streamingGenerator : Program Exc Locals Unit :=
  ((body source consumer).rescue fun e =>
    if e = .error then some (failed source consumer) else none).ensure (cleanup source consumer)

def run : List Event :=
  (streamingGenerator source consumer { completed := !source.checksCompletion }).2.events

end

end Otari.Streaming

import Otari.Streaming.Generator

/-!
# Streaming — Delivery — what the streaming generator yields

`streaming.py`: `streaming_generator` again, over chunks of any type and the functions it is given of
them, with what it yields and how much it holds back at each yield and await.  The accounting of the
settlement callbacks is `Generator`'s; here they only take time, and give a settlement to attach or
none.
-/

namespace Otari.Delivery
open Raising
open Raising.Program
open Streaming (Exc Ending maxTerminalBufferChunks)

/-- What comes of waiting for the upstream. -/
inductive Pull (κ : Type) where
  | chunk (chunk : κ)
  | idle

inductive Output (κ : Type) where
  | keepalive
  | chunk (chunk : κ)
  | done
  | failure

/-- What the generator is given; a function is `none` where it raises.  `formats` is whether a chunk
is formatted, and the first-chunk hook called, without an exception, and `reformats` whether it is
when the error path formats what is still buffered.  `settlement` is whether `on_complete` returns a
settlement, `attaches` whether there is a hook to attach it, and `settlementWaits` how many intervals
it takes. -/
structure Upstream (κ : Type) where
  pulls : List (Pull κ)
  ending : Ending
  completes : κ → Option Bool
  usage : κ → Option Bool
  carrier : κ → Option Bool
  formats : κ → Bool
  reformats : κ → Bool
  keepalive : Bool
  checksCompletion : Bool
  settlement : Bool
  attaches : Bool
  settlementWaits : ℕ
  payloadRaises : Bool
  doneOnError : Bool

/-- The generator's variables, with what it has yielded, the calls of `attach_settlement`, and at
each yield and await how many chunks were held back. -/
structure Locals (κ : Type) where
  yielded : List (Output κ) := []
  terminalBuffer : List κ := []
  costCarrier : Option κ := none
  bufferingTerminal : Bool := false
  completed : Bool
  hasUsage : Bool := false
  attached : List (Option κ) := []
  withheld : List ℕ := []

section
variable {κ : Type} (source : Upstream κ) (consumer : ℕ → Bool)

/-- A yield or an await, where the consumer may leave. -/
def pause : Program Exc (Locals κ) Unit := do
  let moments ← read (·.withheld)
  update fun s => { s with withheld := moments ++ [s.terminalBuffer.length] }
  if consumer moments.length then raise .left

def attempt (raises : Bool) : Program Exc (Locals κ) Unit :=
  if raises then raise .error else pure ()

def answer : Option Bool → Program Exc (Locals κ) Bool
  | some a => pure a
  | none => raise .error

/-- `yield`. -/
def emit (output : Output κ) : Program Exc (Locals κ) Unit := do
  update fun s => { s with yielded := s.yielded ++ [output] }
  pause consumer

/-- `yield _format_and_mark_first(chunk)` for each chunk. -/
def yieldAll (formats : κ → Bool) : List κ → Program Exc (Locals κ) Unit
  | [] => pure ()
  | chunk :: chunks => do
    attempt (!formats chunk)
    emit consumer (.chunk chunk)
    yieldAll formats chunks

/-- `completed = completes_stream(chunk)`, where there is a completion test. -/
def noteCompletion (chunk : κ) : Program Exc (Locals κ) Unit :=
  if source.checksCompletion then do
    let completed ← answer (source.completes chunk)
    update fun s => { s with completed := completed }
  else
    pure ()

/-- `chunk_usage = extract_usage(chunk)`, merged where there is any. -/
def noteUsage (chunk : κ) : Program Exc (Locals κ) Unit := do
  let usage ← answer (source.usage chunk)
  update fun s => { s with hasUsage := s.hasUsage || usage }

/-- What is held is yielded, and cleared once all of it is. -/
def flush (formats : κ → Bool) : Program Exc (Locals κ) Unit := do
  let buffer ← read (·.terminalBuffer)
  yieldAll consumer formats buffer
  update fun s => { s with terminalBuffer := [] }

/-- A cost carrier is held after what was held before it is yielded; what follows it is held too,
until there is too much of it. -/
def holdOrYield (chunk : κ) : Program Exc (Locals κ) Unit := do
  let carrier ← answer (source.carrier chunk)
  let buffer ← read (·.terminalBuffer)
  let buffering ← read (·.bufferingTerminal)
  if carrier then
    flush consumer source.formats
    update fun s => { s with
      terminalBuffer := [chunk]
      costCarrier := some chunk
      bufferingTerminal := true }
  else if buffering then
    if maxTerminalBufferChunks ≤ buffer.length then
      flush consumer source.formats
      update fun s => { s with costCarrier := none, bufferingTerminal := false }
      yieldAll consumer source.formats [chunk]
    else
      update fun s => { s with terminalBuffer := buffer ++ [chunk] }
  else
    yieldAll consumer source.formats [chunk]

def takeChunk (chunk : κ) : Program Exc (Locals κ) Unit := do
  noteCompletion source chunk
  noteUsage source chunk
  holdOrYield source consumer chunk

/-- `async for chunk in source`, over `_chunks_or_keepalive`: each wait for the upstream may be
left, and an idle interval yields a keep-alive. -/
def pump : List (Pull κ) → Program Exc (Locals κ) Unit
  | [] => do
    pause consumer
    attempt (source.ending = .raised)
  | .idle :: pulls => do
    pause consumer
    if source.keepalive then
      emit consumer .keepalive
    pump pulls
  | .chunk chunk :: pulls => do
    pause consumer
    takeChunk source consumer chunk
    pump pulls

/-- Waiting for the settlement task, with a keep-alive for each interval it takes. -/
def awaitSettlement : ℕ → Program Exc (Locals κ) Unit
  | 0 => pause consumer
  | n + 1 => do
    pause consumer
    emit consumer .keepalive
    awaitSettlement n

/-- The settlement of an exhausted stream, attached to the carrier where there is one to attach; the
exceptions of the callbacks and of the hook are logged. -/
def settle : Program Exc (Locals κ) Unit := do
  let hasUsage ← read (·.hasUsage)
  awaitSettlement consumer (if hasUsage && source.keepalive then source.settlementWaits else 0)
  if hasUsage && source.settlement && source.attaches then
    update fun s => { s with attached := s.attached ++ [s.costCarrier] }

/-- The `try` block; `aclosing` awaits the source's close however the loop ends. -/
def body : Program Exc (Locals κ) Unit := do
  (pump source consumer source.pulls).ensure (pause consumer)
  let completed ← read (·.completed)
  attempt (!completed)
  settle source consumer
  flush consumer source.formats
  emit consumer .done

/-- The `except` block. -/
def failed : Program Exc (Locals κ) Unit := do
  flush consumer source.reformats
  attempt source.payloadRaises
  emit consumer .failure
  if source.doneOnError then
    emit consumer .done

/-- `streaming_generator`, up to its last yield. -/
def streamingGenerator : Program Exc (Locals κ) Unit :=
  (body source consumer).rescue fun e =>
    if e = .error then some (failed source consumer) else none

def run : Locals κ :=
  (streamingGenerator source consumer { completed := !source.checksCompletion }).2

end

end Otari.Delivery

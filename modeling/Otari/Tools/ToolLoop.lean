import Otari.Support.Json
import Otari.Tools.UsageTally

/-!
# Tools — ToolLoop — the tool loops and their caps

`services/tools/_use_budget.py`, and the loops that spend it: `_tool_loop.py` with the strategies of
`mcp_loop.py`, `mcp_loop_messages.py` and `mcp_loop_responses.py`.  A call carries what comes of it
where it is run; beside what a loop returns stands the log of the calls it ran and refused.
-/

namespace Otari.Tools

/-! ### Tools and their calls -/

/-- A tool backend; `serverName` names the MCP server of a tool that one supplied. -/
structure ToolBackend where
  ownsTool : String → Bool
  serverName : String → Option String := fun _ => none

/-- `CombinedToolBackend`, or a backend by itself. -/
abbrev ToolPool := List ToolBackend

def ToolPool.ownsTool (pool : ToolPool) (name : String) : Bool := pool.any (·.ownsTool name)

/-- `owning_backend`. -/
def owningBackend (pool : ToolPool) (name : String) : Option ToolBackend :=
  pool.find? (·.ownsTool name)

/-- `tool_failure_detail`. -/
def toolFailureDetail (pool : ToolPool) (name : String) : String :=
  if ((owningBackend pool name).bind (·.serverName name)).any (· ≠ "") then
    "MCP tool execution failed"
  else
    "Gateway tool execution failed"

/-- What a call comes to: a text, an `Exception`, `MaxToolIterationsExceeded`, or what no loop
catches. -/
inductive CallOutcome where
  | returned (text : String)
  | raised
  | iterationsExceeded
  | cancelled

structure ToolCall where
  id : String
  name : String
  outcome : CallOutcome

inductive LoopError where
  | iterationsExceeded
  | cancelled
  | providerFailed

/-- A tool message: the call it answers, and its text. -/
structure ToolMessage where
  id : String
  content : String

/-! ### Caps -/

def maxUsesExceededError : String := "[tool error] max_uses_exceeded"

/-- `ToolUseBudget`: the calls that each capped tool has left. -/
structure ToolUseBudget where
  remaining : String → Option ℤ

namespace ToolUseBudget

/-- `ToolUseBudget.__init__`. -/
def start (maxUses : List (String × ℕ)) : ToolUseBudget :=
  ⟨fun name => (maxUses.lookup name).map Int.ofNat⟩

variable (budget : ToolUseBudget)

def caps (pool : ToolPool) (name : String) : Bool :=
  (budget.remaining name).isSome && pool.ownsTool name

def exhausted (name : String) : Bool := (budget.remaining name).any (· ≤ 0)

def record (name result : String) : ToolUseBudget :=
  if (budget.remaining name).isSome && !isToolError result then
    ⟨Function.update budget.remaining name ((budget.remaining name).map (· - 1))⟩
  else
    budget

end ToolUseBudget

/-- `is_capped_call`. -/
def isCappedCall (budget : Option ToolUseBudget) (pool : ToolPool) (name : String) : Bool :=
  budget.any (·.caps pool name)

/-- `ToolUseBudget(caps) if caps else None`. -/
def useBudget (caps : List (String × ℕ)) : Option ToolUseBudget :=
  if caps.isEmpty then none else some (.start caps)

/-! ### Executing calls -/

/-- A call that was refused for its cap, or run; `none` where what it raised was not caught. -/
inductive ToolEvent where
  | refused (name : String)
  | ran (name : String) (text : Option String)

structure Execution where
  budget : Option ToolUseBudget
  log : List ToolEvent
  results : Except LoopError (List ToolMessage)

/-- A call and its message, ahead of the rest. -/
def Execution.after (rest : Execution) (event : ToolEvent) (message : ToolMessage) : Execution :=
  { rest with
    log := event :: rest.log
    results := rest.results.map (message :: ·) }

/-- How a loop runs a call: the text it goes on with, and whether it charges the call for it. -/
abbrev RunCall := ToolPool → ToolCall → Except LoopError (String × Bool)

def failedText (pool : ToolPool) (name : String) : String :=
  "[tool error] " ++ toolFailureDetail pool name

/-- `try: text = await call_tool(…)`, whose `else` charges the call. -/
def tryCall : RunCall := fun pool call =>
  match call.outcome with
  | .returned text => .ok (text, true)
  | .raised => .ok (failedText pool call.name, false)
  | .iterationsExceeded => .error .iterationsExceeded
  | .cancelled => .error .cancelled

/-- `_call_stream_tool`: whatever it returns is charged. -/
def callStreamTool : RunCall := fun pool call =>
  match call.outcome with
  | .returned text => .ok (text, true)
  | .raised => .ok (failedText pool call.name, true)
  | .iterationsExceeded => .error .iterationsExceeded
  | .cancelled => .error .cancelled

/-- The loop over the calls of a round: each is refused if its cap is spent, and else run. -/
def executeCalls (runCall : RunCall) (pool : ToolPool) :
    Option ToolUseBudget → List ToolCall → Execution
  | budget, [] => ⟨budget, [], .ok []⟩
  | budget, call :: calls =>
    if isCappedCall budget pool call.name && budget.any (·.exhausted call.name) then
      (executeCalls runCall pool budget calls).after (.refused call.name)
        ⟨call.id, maxUsesExceededError⟩
    else
      match runCall pool call with
      | .error e => ⟨budget, [.ran call.name none], .error e⟩
      | .ok (text, charged) =>
        let budget' := if isCappedCall budget pool call.name && charged then
            budget.map (·.record call.name text)
          else
            budget
        (executeCalls runCall pool budget' calls).after (.ran call.name text) ⟨call.id, text⟩

/-- `_run_owned_calls`, of chat, streamed or not. -/
def runOwnedCalls := executeCalls tryCall

/-- `_execute_tool_uses`, of messages. -/
def executeToolUses := executeCalls tryCall

/-- `_execute_stream_owned_events`, of messages that are streamed. -/
def executeStreamOwnedEvents := executeCalls callStreamTool

/-- `_execute_function_calls`, of responses. -/
def executeFunctionCalls := executeCalls tryCall

/-- `_execute_stream_owned`, of responses that are streamed. -/
def executeStreamOwned := executeCalls tryCall

/-! ### The loops -/

inductive WireFormat where
  | chat
  | messages
  | responses
deriving DecidableEq

/-- A turn of the model: its calls, and whether it stopped for another reason than to make them. -/
structure Turn where
  calls : List ToolCall
  stopped : Bool

def splitOwned (turn : Turn) (pool : ToolPool) : List ToolCall × Bool :=
  (turn.calls.filter fun call => pool.ownsTool call.name,
    turn.calls.any fun call => !pool.ownsTool call.name)

namespace WireFormat

def exitBeforeSplit : WireFormat → Turn → Bool
  | chat, turn => turn.stopped
  | _, _ => false

def exitAfterSplit : WireFormat → Turn → Bool
  | messages, turn => turn.stopped
  | _, _ => false

/-- `stream_exiting`, with the calls it keeps for what follows. -/
def streamExiting (format : WireFormat) (turn : Turn) (pool : ToolPool) : Bool × List ToolCall :=
  let (owned, hasForeign) := splitOwned turn pool
  match format with
  | chat => if turn.stopped then (true, []) else (hasForeign || owned.isEmpty, owned)
  | messages => (owned.isEmpty || hasForeign || turn.stopped, owned)
  | responses =>
    if turn.calls.isEmpty || turn.stopped then (true, []) else (hasForeign || owned.isEmpty, owned)

/-- The calls that `finalize_exit` runs. -/
def finalizeExit : WireFormat → Turn → List ToolCall → List ToolCall
  | messages, turn, owned => if turn.stopped then [] else owned
  | _, _, owned => owned

def executeOwned : WireFormat → ToolPool → Option ToolUseBudget → List ToolCall → Execution
  | chat => runOwnedCalls
  | messages => executeToolUses
  | responses => executeFunctionCalls

def executeStreamed : WireFormat → ToolPool → Option ToolUseBudget → List ToolCall → Execution
  | chat => runOwnedCalls
  | messages => executeStreamOwnedEvents
  | responses => executeStreamOwned

end WireFormat

structure LoopRun where
  budget : Option ToolUseBudget
  log : List ToolEvent
  outcome : Except LoopError Unit

def Execution.ends (execution : Execution) : LoopRun :=
  ⟨execution.budget, execution.log, execution.results.map fun _ => ()⟩

/-- The loop goes on with the calls it executed, unless they raised. -/
def Execution.goesOn (execution : Execution) (next : Option ToolUseBudget → LoopRun) : LoopRun :=
  match execution.results with
  | .error e => ⟨execution.budget, execution.log, .error e⟩
  | .ok _ =>
    let rest := next execution.budget
    { rest with log := execution.log ++ rest.log }

/-- `run_tool_loop`, of a provider that answers with the turns. -/
def runToolLoop (format : WireFormat) (pool : ToolPool) :
    ℕ → Option ToolUseBudget → List Turn → LoopRun
  | 0, budget, _ => ⟨budget, [], .error .iterationsExceeded⟩
  | _ + 1, budget, [] => ⟨budget, [], .error .providerFailed⟩
  | iterations + 1, budget, turn :: turns =>
    if format.exitBeforeSplit turn then
      ⟨budget, [], .ok ()⟩
    else
      let (owned, hasForeign) := splitOwned turn pool
      if hasForeign then
        (format.executeOwned pool budget owned).ends
      else if owned.isEmpty || format.exitAfterSplit turn then
        ⟨budget, [], .ok ()⟩
      else
        (format.executeOwned pool budget owned).goesOn
          fun budget => runToolLoop format pool iterations budget turns

/-- `run_tool_loop_stream`, of a provider that streams the turns. -/
def runToolLoopStream (format : WireFormat) (pool : ToolPool) :
    ℕ → Option ToolUseBudget → List Turn → LoopRun
  | 0, budget, _ => ⟨budget, [], .error .iterationsExceeded⟩
  | _ + 1, budget, [] => ⟨budget, [], .error .providerFailed⟩
  | iterations + 1, budget, turn :: turns =>
    let (exiting, owned) := format.streamExiting turn pool
    if exiting then
      (format.executeStreamed pool budget (format.finalizeExit turn owned)).ends
    else
      (format.executeStreamed pool budget owned).goesOn
        fun budget => runToolLoopStream format pool iterations budget turns

/-- A routing attempt: the tools it is dispatched with, and what its provider answers. -/
structure LoopAttempt where
  pool : ToolPool
  maxIterations : ℕ
  turns : List Turn

def LoopAttempt.run (attempt : LoopAttempt) (format : WireFormat) (streamed : Bool)
    (budget : Option ToolUseBudget) : LoopRun :=
  if streamed then runToolLoopStream format attempt.pool attempt.maxIterations budget attempt.turns
  else runToolLoop format attempt.pool attempt.maxIterations budget attempt.turns

/-- The attempts of a request, which draw on one budget. -/
def spendAttempts (format : WireFormat) (streamed : Bool) :
    Option ToolUseBudget → List LoopAttempt → Option ToolUseBudget × List ToolEvent
  | budget, [] => (budget, [])
  | budget, attempt :: attempts =>
    let run := attempt.run format streamed budget
    let (budget', log) := spendAttempts format streamed run.budget attempts
    (budget', run.log ++ log)

end Otari.Tools

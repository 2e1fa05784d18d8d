import Mathlib

/-!
# Bridge — Responses — chat completions answered in Responses shape

`services/inference/_responses_bridge.py`: the whole-completion translation
(`completionToResponse`) and the incremental one (`StreamTranslator`), which turns completion chunks
into the Responses event sequence.  A method of the translator takes it and returns the events with
the translator after.
-/

namespace Otari.Bridge

abbrev Text := List Char

inductive Stem where
  | resp
  | reasoning
  | msg
  | fc
  | call
deriving DecidableEq

/-- An id: one the upstream gave, or the `n`th the gateway minted. -/
inductive Id where
  | given (text : Text)
  | minted (stem : Stem) (n : ℕ)
deriving DecidableEq

/-- `first or second`, the empty text being false. -/
def Id.or (first second : Id) : Id :=
  match first with
  | .given [] => second
  | _ => first

/-! ### Chat completions -/

inductive FinishReason where
  | stop
  | length
  | toolCalls
  | contentFilter
  | functionCall
deriving DecidableEq

/-- A usage report; a count its details leave out is absent. -/
structure CompletionUsage where
  promptTokens : ℤ
  completionTokens : ℤ
  totalTokens : ℤ
  cachedTokens : Option ℤ := none
  reasoningTokens : Option ℤ := none
deriving DecidableEq

structure FunctionCall where
  name : Text
  arguments : Option Text
deriving DecidableEq

/-- A tool call: of a function, or of a custom tool. -/
structure ToolCall where
  id : Text
  function : Option FunctionCall
deriving DecidableEq

structure CompletionMessage where
  reasoning : Option Text := none
  content : Option Text := none
  refusal : Option Text := none
  toolCalls : List ToolCall := []
deriving DecidableEq

structure CompletionChoice where
  finishReason : FinishReason
  message : CompletionMessage
deriving DecidableEq

structure ChatCompletion where
  created : ℤ
  model : Text
  choices : List CompletionChoice
  usage : Option CompletionUsage := none
deriving DecidableEq

structure FunctionDelta where
  name : Option Text := none
  arguments : Option Text := none
deriving DecidableEq

structure ToolCallDelta where
  index : ℤ
  id : Option Text := none
  function : Option FunctionDelta := none
deriving DecidableEq

def ToolCallDelta.name (call : ToolCallDelta) : Text :=
  (call.function.bind (·.name)).getD []

def ToolCallDelta.fragment (call : ToolCallDelta) : Text :=
  (call.function.bind (·.arguments)).getD []

structure ChoiceDelta where
  reasoning : Option Text := none
  content : Option Text := none
  refusal : Option Text := none
  toolCalls : List ToolCallDelta := []
deriving DecidableEq

structure ChunkChoice where
  delta : ChoiceDelta
  finishReason : Option FinishReason := none
deriving DecidableEq

structure ChatCompletionChunk where
  model : Text
  choices : List ChunkChoice := []
  usage : Option CompletionUsage := none
deriving DecidableEq

/-! ### Responses -/

inductive Status where
  | inProgress
  | completed
  | incomplete
deriving DecidableEq

/-- A content part; the annotations and log probabilities of a text are empty. -/
inductive Part where
  | reasoningText (text : Text)
  | outputText (text : Text)
  | refusal (refusal : Text)
deriving DecidableEq

inductive OutputItem where
  | reasoning (id : Id) (content : List Part) (status : Status)
  | message (id : Id) (content : List Part) (status : Status)
  | functionCall (id : Id) (callId : Id) (name arguments : Text) (status : Status)
deriving DecidableEq

structure ResponseUsage where
  inputTokens : ℤ
  cachedTokens : ℤ
  outputTokens : ℤ
  reasoningTokens : ℤ
  totalTokens : ℤ
deriving DecidableEq

inductive IncompleteReason where
  | maxOutputTokens
  | contentFilter
deriving DecidableEq

structure ResponseEcho where
  model : Text
  instructions : Option Text := none
  tools : List Text := []
  toolChoice : Text := "auto".toList
  parallelToolCalls : Bool := true
  temperature : Option ℚ := none
  topP : Option ℚ := none
  maxOutputTokens : Option ℤ := none
deriving DecidableEq

structure Response where
  fields : ResponseEcho
  id : Id
  createdAt : ℚ
  model : Text
  status : Status
  incompleteDetails : Option IncompleteReason
  output : List OutputItem
  usage : Option ResponseUsage
deriving DecidableEq

/-- `_responses_usage`. -/
def responsesUsage (usage : Option CompletionUsage) : Option ResponseUsage :=
  usage.map fun usage =>
    { inputTokens := usage.promptTokens
      cachedTokens := usage.cachedTokens.getD 0
      outputTokens := usage.completionTokens
      reasoningTokens := usage.reasoningTokens.getD 0
      totalTokens := usage.totalTokens }

/-- `_reasoning_item`. -/
def reasoningItem (itemId : Id) (text : Text) (status : Status) : OutputItem :=
  .reasoning itemId (if text ≠ [] ∨ status = .completed then [.reasoningText text] else []) status

/-- `x or None`. -/
def truthy (text : Option Text) : Option Text :=
  text.filter (· ≠ [])

/-- `_message_item`. -/
def messageItem (itemId : Id) (text : Option Text) (status : Status)
    (refusal : Option Text := none) : OutputItem :=
  .message itemId (text.toList.map .outputText ++ (truthy refusal).toList.map .refusal) status

/-- `_INCOMPLETE_REASONS`. -/
def incompleteReasons : Option FinishReason → Option IncompleteReason
  | some .length => some .maxOutputTokens
  | some .contentFilter => some .contentFilter
  | _ => none

/-- `_ResponseEcho.response`. -/
def ResponseEcho.response (echo : ResponseEcho) (responseId : Id) (createdAt : ℚ)
    (model : Option Text) (status : Status) (output : List OutputItem)
    (finishReason : Option FinishReason) (usage : Option CompletionUsage) : Response :=
  let incomplete := if status ≠ .inProgress then incompleteReasons finishReason else none
  { fields := echo
    id := responseId
    createdAt := createdAt
    model := (truthy model).getD echo.model
    status := if incomplete.isSome then .incomplete else status
    incompleteDetails := incomplete
    output := output
    usage := responsesUsage usage }

/-- The items of a whole message.  The ids minted are numbered from `n`. -/
def messageOutput (message : CompletionMessage) (n : ℕ) : List OutputItem :=
  let reasoning := (truthy message.reasoning).toList.map fun text =>
    reasoningItem (.minted .reasoning n) text .completed
  let text := if (truthy message.content).isSome ∨ (truthy message.refusal).isSome then
      [messageItem (.minted .msg (n + 1)) (truthy message.content) .completed message.refusal]
    else []
  let calls := (message.toolCalls.filterMap fun call =>
      call.function.map fun function => (call.id, function)).zipIdx.map fun ((id, function), i) =>
    OutputItem.functionCall (.minted .fc (n + 2 + i)) (.given id) function.name
      (function.arguments.getD []) .completed
  reasoning ++ text ++ calls

/-- `_completion_to_response`. -/
def completionToResponse (completion : ChatCompletion) (echo : ResponseEcho) (now : ℚ) : Response :=
  let choice := completion.choices.head?
  echo.response (.minted .resp 0)
    (if completion.created ≠ 0 then completion.created else now) (some completion.model) .completed
    ((choice.map fun choice => messageOutput choice.message 1).getD [])
    (choice.map (·.finishReason)) completion.usage

/-! ### Stream events -/

inductive Payload where
  | created (response : Response)
  | inProgress (response : Response)
  | completed (response : Response)
  | incomplete (response : Response)
  | outputItemAdded (outputIndex : ℕ) (item : OutputItem)
  | outputItemDone (outputIndex : ℕ) (item : OutputItem)
  | contentPartAdded (itemId : Id) (outputIndex contentIndex : ℕ) (part : Part)
  | contentPartDone (itemId : Id) (outputIndex contentIndex : ℕ) (part : Part)
  | outputTextDelta (itemId : Id) (outputIndex contentIndex : ℕ) (delta : Text)
  | outputTextDone (itemId : Id) (outputIndex contentIndex : ℕ) (text : Text)
  | reasoningTextDelta (itemId : Id) (outputIndex contentIndex : ℕ) (delta : Text)
  | reasoningTextDone (itemId : Id) (outputIndex contentIndex : ℕ) (text : Text)
  | functionCallArgumentsDelta (itemId : Id) (outputIndex : ℕ) (delta : Text)
  | functionCallArgumentsDone (itemId : Id) (outputIndex : ℕ) (name arguments : Text)
deriving DecidableEq

structure StreamEvent where
  sequenceNumber : ℕ
  payload : Payload
deriving DecidableEq

/-! ### The stream translator -/

/-- `_ToolCallState`. -/
structure ToolCallState where
  itemId : Id
  callId : Id := .given []
  name : Text := []
  arguments : Text := []
  outputIndex : Option ℕ := none
deriving DecidableEq

def ToolCallState.extend (state : ToolCallState) (call : ToolCallDelta) : ToolCallState :=
  { state with
    callId := state.callId.or (.given (call.id.getD []))
    name := if state.name = [] then call.name else state.name
    arguments := state.arguments ++ call.fragment }

def ToolCallState.item (state : ToolCallState) : OutputItem :=
  .functionCall state.itemId state.callId state.name state.arguments .completed

/-- `_StreamTranslator`.  `toolCalls` is in the order the indexes were first seen, and `minted`
counts the ids drawn. -/
structure StreamTranslator where
  echo : ResponseEcho
  responseId : Id := .minted .resp 0
  createdAt : ℚ
  model : Option Text := none
  sequence : ℕ := 0
  output : List OutputItem := []
  reasoning : Option (ℕ × Id) := none
  reasoningText : Text := []
  text : Option (ℕ × Id) := none
  textValue : Text := []
  toolCalls : List (ℤ × ToolCallState) := []
  finishReason : Option FinishReason := none
  usage : Option CompletionUsage := none
  minted : ℕ := 1

namespace StreamTranslator

/-- `_event`, one after another. -/
def events (tr : StreamTranslator) : List Payload → List StreamEvent × StreamTranslator
  | [] => ([], tr)
  | payload :: payloads =>
    let (rest, after) := events { tr with sequence := tr.sequence + 1 } payloads
    (⟨tr.sequence, payload⟩ :: rest, after)

/-- The events of a step, and then those of the next. -/
def next (step : List StreamEvent × StreamTranslator)
    (f : StreamTranslator → List StreamEvent × StreamTranslator) :
    List StreamEvent × StreamTranslator :=
  (step.1 ++ (f step.2).1, (f step.2).2)

/-- `_new_id`. -/
def newId (tr : StreamTranslator) (stem : Stem) : Id × StreamTranslator :=
  (.minted stem tr.minted, { tr with minted := tr.minted + 1 })

/-- `_snapshot`. -/
def snapshot (tr : StreamTranslator) (status : Status) : Response :=
  tr.echo.response tr.responseId tr.createdAt tr.model status tr.output tr.finishReason
    (if status ≠ .inProgress then tr.usage else none)

def start (tr : StreamTranslator) : List StreamEvent × StreamTranslator :=
  let snapshot := tr.snapshot .inProgress
  tr.events [.created snapshot, .inProgress snapshot]

/-- `_open_item`, beside its event: the index of the item, and the translator that has it. -/
def openItem (tr : StreamTranslator) (item : OutputItem) : ℕ × StreamTranslator :=
  (tr.output.length, { tr with output := tr.output ++ [item] })

def closeReasoning (tr : StreamTranslator) : List StreamEvent × StreamTranslator :=
  match tr.reasoning with
  | none => ([], tr)
  | some (index, itemId) =>
    let item := reasoningItem itemId tr.reasoningText .completed
    { tr with reasoning := none, output := tr.output.set index item }.events
      [.reasoningTextDone itemId index 0 tr.reasoningText,
       .contentPartDone itemId index 0 (.reasoningText tr.reasoningText),
       .outputItemDone index item]

def closeText (tr : StreamTranslator) : List StreamEvent × StreamTranslator :=
  match tr.text with
  | none => ([], tr)
  | some (index, itemId) =>
    let item := messageItem itemId (some tr.textValue) .completed
    { tr with text := none, output := tr.output.set index item }.events
      [.outputTextDone itemId index 0 tr.textValue,
       .contentPartDone itemId index 0 (.outputText tr.textValue),
       .outputItemDone index item]

/-- The opening half of `_reasoning_delta`. -/
def openReasoning (tr : StreamTranslator) : List StreamEvent × StreamTranslator :=
  match tr.reasoning with
  | some _ => ([], tr)
  | none =>
    let (itemId, tr) := tr.newId .reasoning
    let item := reasoningItem itemId [] .inProgress
    let (index, tr) := tr.openItem item
    { tr with reasoning := some (index, itemId) }.events
      [.outputItemAdded index item, .contentPartAdded itemId index 0 (.reasoningText [])]

/-- Its other half: the delta, on the open item. -/
def appendReasoning (delta : Text) (tr : StreamTranslator) : List StreamEvent × StreamTranslator :=
  match tr.reasoning with
  | none => ([], tr)
  | some (index, itemId) =>
    { tr with reasoningText := tr.reasoningText ++ delta }.events
      [.reasoningTextDelta itemId index 0 delta]

def reasoningDelta (tr : StreamTranslator) (delta : Text) : List StreamEvent × StreamTranslator :=
  next tr.openReasoning (appendReasoning delta)

def openText (tr : StreamTranslator) : List StreamEvent × StreamTranslator :=
  match tr.text with
  | some _ => ([], tr)
  | none =>
    let (itemId, tr) := tr.newId .msg
    let item := messageItem itemId none .inProgress
    let (index, tr) := tr.openItem item
    { tr with text := some (index, itemId) }.events
      [.outputItemAdded index item, .contentPartAdded itemId index 0 (.outputText [])]

def appendText (delta : Text) (tr : StreamTranslator) : List StreamEvent × StreamTranslator :=
  match tr.text with
  | none => ([], tr)
  | some (index, itemId) =>
    { tr with textValue := tr.textValue ++ delta }.events [.outputTextDelta itemId index 0 delta]

def textDelta (tr : StreamTranslator) (delta : Text) : List StreamEvent × StreamTranslator :=
  next (next tr.closeReasoning openText) (appendText delta)

/-- `self.tool_calls[index] = state`, in the place the index has. -/
def putCall (tr : StreamTranslator) (index : ℤ) (state : ToolCallState) : StreamTranslator :=
  { tr with
    toolCalls := tr.toolCalls.map fun entry => if entry.1 = index then (index, state) else entry }

/-- `state.call_id or _new_id("call")`. -/
def nameCall (tr : StreamTranslator) (state : ToolCallState) : ToolCallState × StreamTranslator :=
  if state.callId = .given [] then
    let (callId, tr) := tr.newId .call
    ({ state with callId := callId }, tr)
  else (state, tr)

def openingEvents (state : ToolCallState) (index : ℕ) (item : OutputItem) : List Payload :=
  .outputItemAdded index item ::
    if state.arguments ≠ [] then [.functionCallArgumentsDelta state.itemId index state.arguments]
    else []

/-- The opening half of `_open_tool_call`: the call's state with its index, and the events. -/
def addToolCall (tr : StreamTranslator) (state : ToolCallState) :
    ToolCallState × List StreamEvent × StreamTranslator :=
  let (state, tr) := tr.nameCall state
  let item := OutputItem.functionCall state.itemId state.callId state.name [] .inProgress
  let (index, tr) := tr.openItem item
  ({ state with outputIndex := some index }, tr.events (openingEvents state index item))

/-- `_open_tool_call`. -/
def openToolCall (tr : StreamTranslator) (state : ToolCallState) :
    ToolCallState × List StreamEvent × StreamTranslator :=
  let closed := next tr.closeReasoning closeText
  let (state, opened) := closed.2.addToolCall state
  (state, closed.1 ++ opened.1, opened.2)

/-- `setdefault`: the call's state, a new one at the end.  A new state is made, and its id drawn,
either way. -/
def toolCallState (tr : StreamTranslator) (index : ℤ) : ToolCallState × StreamTranslator :=
  let (itemId, tr) := tr.newId .fc
  match tr.toolCalls.lookup index with
  | some state => (state, tr)
  | none => ({ itemId := itemId },
      { tr with toolCalls := tr.toolCalls ++ [(index, { itemId := itemId })] })

def toolCallDelta (tr : StreamTranslator) (call : ToolCallDelta) :
    List StreamEvent × StreamTranslator :=
  let (state, tr) := tr.toolCallState call.index
  let state := state.extend call
  match state.outputIndex with
  | none =>
    if state.name ≠ [] then
      let (state, opened, tr) := tr.openToolCall state
      (opened, tr.putCall call.index state)
    else ([], tr.putCall call.index state)
  | some index =>
    (tr.putCall call.index state).events
      (if call.fragment = [] then []
        else [.functionCallArgumentsDelta state.itemId index call.fragment])

def toolCallDeltas (tr : StreamTranslator) :
    List ToolCallDelta → List StreamEvent × StreamTranslator
  | [] => ([], tr)
  | call :: calls => next (tr.toolCallDelta call) fun tr => tr.toolCallDeltas calls

def feedReasoning (tr : StreamTranslator) (delta : ChoiceDelta) :
    List StreamEvent × StreamTranslator :=
  match truthy delta.reasoning with
  | some text => tr.reasoningDelta text
  | none => ([], tr)

def feedText (delta : ChoiceDelta) (tr : StreamTranslator) : List StreamEvent × StreamTranslator :=
  let text := delta.content.getD [] ++ delta.refusal.getD []
  if text ≠ [] then tr.textDelta text else ([], tr)

def feed (tr : StreamTranslator) (chunk : ChatCompletionChunk) :
    List StreamEvent × StreamTranslator :=
  let tr := { tr with
    model := (truthy tr.model).or (some chunk.model)
    usage := chunk.usage.or tr.usage }
  match chunk.choices with
  | [] => ([], tr)
  | choice :: _ =>
    let (events, tr) := next (next (tr.feedReasoning choice.delta) (feedText choice.delta))
      fun tr => tr.toolCallDeltas choice.delta.toolCalls
    (events, { tr with finishReason := choice.finishReason.or tr.finishReason })

/-- A call the stream left unopened is opened by the loop in `finish`. -/
def openedCall (tr : StreamTranslator) (state : ToolCallState) :
    ToolCallState × List StreamEvent × StreamTranslator :=
  match state.outputIndex with
  | some _ => (state, [], tr)
  | none => tr.openToolCall state

def closeToolCall (tr : StreamTranslator) (state : ToolCallState) :
    List StreamEvent × StreamTranslator :=
  match state.outputIndex with
  | none => ([], tr)
  | some index =>
    { tr with output := tr.output.set index state.item }.events
      [.functionCallArgumentsDone state.itemId index state.name state.arguments,
       .outputItemDone index state.item]

def finishCall (tr : StreamTranslator) (state : ToolCallState) :
    List StreamEvent × StreamTranslator :=
  let (state, opened) := tr.openedCall state
  next opened fun tr => tr.closeToolCall state

def finishCalls (tr : StreamTranslator) :
    List ToolCallState → List StreamEvent × StreamTranslator
  | [] => ([], tr)
  | state :: states => next (tr.finishCall state) fun tr => tr.finishCalls states

def terminal (tr : StreamTranslator) : List StreamEvent × StreamTranslator :=
  let snapshot := tr.snapshot .completed
  tr.events [if snapshot.status = .incomplete then .incomplete snapshot else .completed snapshot]

def finish (tr : StreamTranslator) : List StreamEvent × StreamTranslator :=
  next (next (next tr.closeReasoning closeText)
    fun tr => tr.finishCalls (tr.toolCalls.map Prod.snd)) terminal

def feedAll (tr : StreamTranslator) :
    List ChatCompletionChunk → List StreamEvent × StreamTranslator
  | [] => ([], tr)
  | chunk :: chunks => next (tr.feed chunk) fun tr => tr.feedAll chunks

end StreamTranslator

/-- `_stream_events`, over the chunks of a stream that ended. -/
def streamEvents (echo : ResponseEcho) (now : ℚ) (chunks : List ChatCompletionChunk) :
    List StreamEvent :=
  let tr : StreamTranslator := { echo := echo, createdAt := now }
  (StreamTranslator.next (StreamTranslator.next tr.start fun tr => tr.feedAll chunks)
    StreamTranslator.finish).1

end Otari.Bridge

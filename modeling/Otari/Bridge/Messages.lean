import Mathlib

/-!
# Bridge — Messages — Messages requests served from a Responses API

`services/inference/_messages_responses_bridge.py`: a whole response in Messages shape
(`messageFromResponse`), its event stream translated as it comes (`StreamTranslator`), and an
assistant turn translated back into input items (`assistantItems`), with the encrypted reasoning
carried in a thinking block's signature.
-/

namespace Otari.Messages

abbrev Text := List Char

/-- What `json.loads` makes of a text that parses: a dict, or another value. -/
inductive Parsed (Dict : Type) where
  | dict (members : Dict)
  | other

/-- What the bridge uses of `json` and `hashlib`. -/
structure Library (Dict : Type) where
  loads : Text → Option (Parsed Dict)
  dumps : Dict → Text
  empty : Dict
  sha256 : Text → List (Fin 256)

/-! ### Responses -/

/-- A content part of a message; a part of another type has no counterpart. -/
inductive Part where
  | outputText (text : Text)
  | refusal (refusal : Text)
  | other
deriving DecidableEq

/-- An output item.  A reasoning item has the texts of its summary parts. -/
inductive OutputItem where
  | reasoning (id : Text) (summary : List Text) (encryptedContent : Option Text)
  | message (content : List Part)
  | functionCall (callId name arguments : Text)
  | other
deriving DecidableEq

inductive Status where
  | inProgress
  | completed
  | incomplete
  | failed
deriving DecidableEq

inductive IncompleteReason where
  | maxOutputTokens
  | contentFilter
  | other
deriving DecidableEq

structure ResponseUsage where
  inputTokens : ℤ
  cachedTokens : ℤ := 0
  outputTokens : ℤ
  reasoningTokens : ℤ := 0
deriving DecidableEq

structure Response where
  id : Option Text
  model : Text
  status : Status
  incompleteReason : Option IncompleteReason := none
  output : List OutputItem
  usage : Option ResponseUsage
deriving DecidableEq

/-- An item of a request's input, of the kinds an assistant turn gives. -/
inductive InputItem where
  | assistant (content : Text)
  | functionCall (callId name arguments : Text)
  | reasoning (id : Option Text) (summary : List Text) (encryptedContent : Text)
deriving DecidableEq

/-! ### Messages -/

/-- A content block.  Of the blocks of other types none is written here or read back. -/
inductive Block (Dict : Type) where
  | thinking (thinking signature : Text)
  | text (text : Text)
  | toolUse (id name : Text) (input : Dict)
  | other
deriving DecidableEq

inductive StopReason where
  | endTurn
  | maxTokens
  | refusal
  | toolUse
deriving DecidableEq

structure MessageUsage where
  inputTokens : ℤ
  cacheReadInputTokens : ℤ
  cacheCreationInputTokens : ℤ
  outputTokens : ℤ
  thinkingTokens : Option ℤ
deriving DecidableEq

/-- A reply.  Without an id it has one drawn for it, and without a usage the unreported one. -/
structure MessageResponse (Dict : Type) where
  id : Option Text
  model : Text
  content : List (Block Dict)
  stopReason : StopReason
  usage : Option MessageUsage
deriving DecidableEq

/-! ### Signatures -/

/-- `REASONING_SIGNATURE_PREFIX`. -/
def reasoningSignaturePrefix : Text :=
  ['o', 't', 'a', 'r', 'i', '-', 'r', 's', 'n', '1', '.']

def hexDigits : List Char :=
  ['0', '1', '2', '3', '4', '5', '6', '7', '8', '9', 'a', 'b', 'c', 'd', 'e', 'f']

/-- `hexdigest`: two digits a byte. -/
def hexdigest (bytes : List (Fin 256)) : Text :=
  bytes.flatMap fun byte =>
    [hexDigits.getD (byte.val / 16) '0', hexDigits.getD (byte.val % 16) '0']

section
variable {Dict : Type} (library : Library Dict)

/-- `_instance_tag`. -/
def instanceTag (name : Text) : Text :=
  (hexdigest (library.sha256 name)).take 16

/-- `reasoning_signature`. -/
def reasoningSignature (name encryptedContent : Text) : Text :=
  reasoningSignaturePrefix ++ instanceTag library name ++ '.' :: encryptedContent

/-- `str.partition(".")`, without the separator. -/
def partitionDot (text : Text) : Text × Text :=
  (text.takeWhile (· ≠ '.'), (text.dropWhile (· ≠ '.')).drop 1)

/-- `_minted_reasoning`, of a block's signature. -/
def mintedReasoning (signature name : Text) : Option Text :=
  let (tag, encrypted) := partitionDot (signature.drop reasoningSignaturePrefix.length)
  if tag = instanceTag library name ∧ encrypted ≠ [] then some encrypted else none

/-- `_is_minted_thinking`, of a thinking block's signature. -/
def isMinted (signature : Text) : Bool :=
  reasoningSignaturePrefix.isPrefixOf signature

/-! ### An assistant turn as input items -/

/-- The text gathered so far, as one output message. -/
def flush (text : List Text) : List InputItem :=
  if text = [] then [] else [.assistant text.flatten]

/-- The loop of `_assistant_items`, with the text gathered so far. -/
def assistantItemsFrom (name : Text) (text : List Text) : List (Block Dict) → List InputItem
  | [] => flush text
  | .text words :: blocks => assistantItemsFrom name (text ++ [words]) blocks
  | .toolUse id tool input :: blocks =>
    flush text ++ .functionCall id tool (library.dumps input) :: assistantItemsFrom name [] blocks
  | .thinking thinking signature :: blocks =>
    match (if isMinted signature then mintedReasoning library signature name else none) with
    | some encrypted =>
      flush text ++ .reasoning none (if thinking = [] then [] else [thinking]) encrypted ::
        assistantItemsFrom name [] blocks
    | none => assistantItemsFrom name text blocks
  | .other :: blocks => assistantItemsFrom name text blocks

/-- `_assistant_items`. -/
def assistantItems (blocks : List (Block Dict)) (name : Text) : List InputItem :=
  assistantItemsFrom library name [] blocks

/-! ### A whole response as a message -/

/-- `"\n\n".join`. -/
def joinParagraphs : List Text → Text
  | [] => []
  | [text] => text
  | text :: texts => text ++ '\n' :: '\n' :: joinParagraphs texts

/-- The signature of an item's encrypted content, empty for none. -/
def signatureOf (name : Text) (encryptedContent : Option Text) : Text :=
  match encryptedContent with
  | none | some [] => []
  | some encrypted => reasoningSignature library name encrypted

/-- `_tool_input`. -/
def toolInput (arguments : Text) : Dict :=
  match library.loads (if arguments = [] then ['{', '}'] else arguments) with
  | some (.dict members) => members
  | _ => library.empty

/-- The blocks of one item in `message_from_response`. -/
def itemBlocks (name : Text) : OutputItem → List (Block Dict)
  | .reasoning _ summary encryptedContent =>
    let thinking := joinParagraphs summary
    let signature := signatureOf library name encryptedContent
    if thinking ≠ [] ∨ signature ≠ [] then [.thinking thinking signature] else []
  | .message content => content.flatMap fun part =>
    match part with
    | .outputText text => [.text text]
    | .refusal refusal => [.text refusal]
    | .other => []
  | .functionCall callId tool arguments => [.toolUse callId tool (toolInput library arguments)]
  | .other => []

def OutputItem.isCall : OutputItem → Bool
  | .functionCall .. => true
  | _ => false

def OutputItem.refuses : OutputItem → Bool
  | .message content => content.any fun part =>
    match part with
    | .refusal _ => true
    | _ => false
  | _ => false

/-- `_stop_reason`; the reasons of `_STOP_FOR_INCOMPLETE` come first. -/
def stopReason (response : Response) (toolCalled refused : Bool) : StopReason :=
  if response.status = .incomplete then
    match response.incompleteReason with
    | some .maxOutputTokens => .maxTokens
    | some .contentFilter => .refusal
    | _ => .endTurn
  else if refused then .refusal
  else if toolCalled then .toolUse else .endTurn

/-- `_usage`. -/
def messageUsage (usage : Option ResponseUsage) : Option MessageUsage :=
  usage.map fun usage =>
    { inputTokens := max (usage.inputTokens - usage.cachedTokens) 0
      cacheReadInputTokens := usage.cachedTokens
      cacheCreationInputTokens := 0
      outputTokens := usage.outputTokens
      thinkingTokens := some usage.reasoningTokens |>.filter (· ≠ 0) }

/-- `_message_id`; an empty id counts as none. -/
def messageId (response : Response) : Option Text :=
  (response.id.filter (· ≠ [])).map fun id => ['m', 's', 'g', '_'] ++ id

/-- `message_from_response`. -/
def messageFromResponse (name : Text) (response : Response) : MessageResponse Dict :=
  { id := messageId response
    model := response.model
    content := response.output.flatMap (itemBlocks library name)
    stopReason := stopReason response (response.output.any (·.isCall))
      (response.output.any (·.refuses))
    usage := messageUsage response.usage }

end

/-! ### The stream translator -/

/-- A Responses stream event, of the types the translator looks at.  Every other type is
`other`. -/
inductive Event where
  | created (response : Response)
  | inProgress (response : Response)
  | outputItemAdded (outputIndex : ℕ) (item : OutputItem)
  | outputTextDelta (outputIndex contentIndex : ℕ) (delta : Text)
  | refusalDelta (outputIndex contentIndex : ℕ) (delta : Text)
  | functionCallArgumentsDelta (outputIndex : ℕ) (delta : Text)
  | reasoningSummaryPartAdded (outputIndex summaryIndex : ℕ)
  | reasoningSummaryTextDelta (outputIndex : ℕ) (delta : Text)
  | outputItemDone (outputIndex : ℕ) (item : OutputItem)
  | completed (response : Response)
  | incomplete (response : Response)
  | failed (code : Option Text)
  | error (code : Option Text)
  | other

inductive Delta where
  | text (text : Text)
  | inputJson (partialJson : Text)
  | thinking (thinking : Text)
  | signature (signature : Text)
deriving DecidableEq

inductive MessageEvent (Dict : Type) where
  | messageStart (id : Option Text) (model : Text)
  | contentBlockStart (index : ℕ) (block : Block Dict)
  | contentBlockDelta (index : ℕ) (delta : Delta)
  | contentBlockStop (index : ℕ)
  | messageDelta (stopReason : StopReason) (usage : Option MessageUsage)
  | messageStop
deriving DecidableEq

/-- A block's key: its output index and its content index. -/
abbrev Key := ℕ × ℕ

/-- `_StreamTranslator`.  `opened` is the open blocks in the order of their indexes. -/
structure StreamTranslator where
  pendingReasoning : Finset ℕ := ∅
  nextIndex : ℕ := 0
  opened : List (Key × ℕ) := []
  argumentsStreamed : Finset ℕ := ∅
  toolCalled : Bool := false
  refused : Bool := false
  started : Bool := false

namespace StreamTranslator
variable {Dict : Type} (library : Library Dict)

def indexOf (tr : StreamTranslator) (key : Key) : Option ℕ := tr.opened.lookup key

/-- `_start`.  The index given last is the highest, so it stands last. -/
def start (tr : StreamTranslator) (key : Key) (block : Block Dict) :
    List (MessageEvent Dict) × StreamTranslator :=
  ([.contentBlockStart tr.nextIndex block],
    { tr with
      nextIndex := tr.nextIndex + 1
      opened := (tr.opened.filter fun entry => entry.1 ≠ key) ++ [(key, tr.nextIndex)] })

/-- `_delta`, on an open block. -/
def delta (tr : StreamTranslator) (key : Key) (delta : Delta) : List (MessageEvent Dict) :=
  (tr.indexOf key).toList.map fun index => .contentBlockDelta index delta

/-- A step's events, and then those of the next step. -/
def next (step : List (MessageEvent Dict) × StreamTranslator)
    (f : StreamTranslator → List (MessageEvent Dict) × StreamTranslator) :
    List (MessageEvent Dict) × StreamTranslator :=
  (step.1 ++ (f step.2).1, (f step.2).2)

/-- The stops of the open blocks a test picks, in order. -/
def stop (tr : StreamTranslator) (picks : Key → Bool) :
    List (MessageEvent Dict) × StreamTranslator :=
  ((tr.opened.filter fun entry => picks entry.1).map fun entry => .contentBlockStop entry.2,
    { tr with opened := tr.opened.filter fun entry => !picks entry.1 })

/-- `_text_delta`. -/
def textDelta (tr : StreamTranslator) (key : Key) (text : Text) :
    List (MessageEvent Dict) × StreamTranslator :=
  next (if tr.indexOf key = none then tr.start key (.text []) else ([], tr)) fun tr =>
    (if text = [] then [] else tr.delta key (.text text), tr)

/-- `_message_start`. -/
def messageStart (tr : StreamTranslator) (response : Response) :
    List (MessageEvent Dict) × StreamTranslator :=
  ([.messageStart (messageId response) response.model], { tr with started := true })

/-- `_thinking_delta`. -/
def thinkingDelta (tr : StreamTranslator) (outputIndex : ℕ) (text : Text) :
    List (MessageEvent Dict) × StreamTranslator :=
  if tr.indexOf (outputIndex, 0) = none ∧ (outputIndex ∉ tr.pendingReasoning ∨ text = []) then
    ([], tr)
  else
    next (if tr.indexOf (outputIndex, 0) = none then
        { tr with pendingReasoning := tr.pendingReasoning.erase outputIndex }.start
          (outputIndex, 0) (.thinking [] [])
      else ([], tr)) fun tr =>
      (if text = [] then [] else tr.delta (outputIndex, 0) (.thinking text), tr)

/-- The reasoning branch of `_item_done`. -/
def reasoningDone (tr : StreamTranslator) (name : Text) (outputIndex : ℕ)
    (encryptedContent : Option Text) : List (MessageEvent Dict) × StreamTranslator :=
  match encryptedContent with
  | none | some [] => ([], { tr with pendingReasoning := tr.pendingReasoning.erase outputIndex })
  | some encrypted =>
    next (if outputIndex ∈ tr.pendingReasoning then
        { tr with pendingReasoning := tr.pendingReasoning.erase outputIndex }.start
          (outputIndex, 0) (.thinking [] [])
      else ([], tr)) fun tr =>
      (tr.delta (outputIndex, 0) (.signature (reasoningSignature library name encrypted)), tr)

def partDone (tr : StreamTranslator) (key : Key) (part : Part) :
    List (MessageEvent Dict) × StreamTranslator :=
  if tr.indexOf key ≠ none then ([], tr)
  else
    match part with
    | .outputText text => if text = [] then ([], tr) else tr.textDelta key text
    | .refusal text => if text = [] then ([], tr) else { tr with refused := true }.textDelta key text
    | .other => ([], tr)

/-- The message branch of `_item_done`, from a content index on. -/
def partsDone (tr : StreamTranslator) (outputIndex contentIndex : ℕ) :
    List Part → List (MessageEvent Dict) × StreamTranslator
  | [] => ([], tr)
  | part :: parts => next (tr.partDone (outputIndex, contentIndex) part) fun tr =>
    tr.partsDone outputIndex (contentIndex + 1) parts

/-- The branches of `_item_done`. -/
def contentDone (tr : StreamTranslator) (name : Text) (outputIndex : ℕ) :
    OutputItem → List (MessageEvent Dict) × StreamTranslator
  | .reasoning _ _ encryptedContent => tr.reasoningDone library name outputIndex encryptedContent
  | .functionCall _ _ arguments =>
    (if outputIndex ∉ tr.argumentsStreamed ∧ arguments ≠ [] then
      tr.delta (outputIndex, 0) (.inputJson arguments) else [], tr)
  | .message content => tr.partsDone outputIndex 0 content
  | .other => ([], tr)

/-- `_item_done`. -/
def itemDone (tr : StreamTranslator) (name : Text) (outputIndex : ℕ) (item : OutputItem) :
    List (MessageEvent Dict) × StreamTranslator :=
  next (tr.contentDone library name outputIndex item) fun tr =>
    tr.stop fun key => key.1 = outputIndex

/-- `_finish`. -/
def finish (tr : StreamTranslator) (response : Response) :
    List (MessageEvent Dict) × StreamTranslator :=
  next (next (if tr.started then ([], tr) else tr.messageStart response) fun tr =>
    tr.stop fun _ => true) fun tr =>
    ([.messageDelta (stopReason response tr.toolCalled tr.refused) (messageUsage response.usage),
      .messageStop], tr)

/-- `translate`.  It raises on a failure, with the provider's code. -/
def translate (tr : StreamTranslator) (name : Text) :
    Event → Except (Option Text) (List (MessageEvent Dict) × StreamTranslator)
  | .created response | .inProgress response =>
    .ok (if tr.started then ([], tr) else tr.messageStart response)
  | .outputItemAdded outputIndex item =>
    match item with
    | .functionCall callId tool _ =>
      .ok ({ tr with toolCalled := true }.start (outputIndex, 0)
        (.toolUse callId tool library.empty))
    | .reasoning .. => .ok ([], { tr with pendingReasoning := insert outputIndex tr.pendingReasoning })
    | _ => .ok ([], tr)
  | .outputTextDelta outputIndex contentIndex delta =>
    .ok (tr.textDelta (outputIndex, contentIndex) delta)
  | .refusalDelta outputIndex contentIndex delta =>
    .ok ({ tr with refused := true }.textDelta (outputIndex, contentIndex) delta)
  | .functionCallArgumentsDelta outputIndex delta =>
    if tr.indexOf (outputIndex, 0) = none then .ok ([], tr)
    else .ok (tr.delta (outputIndex, 0) (.inputJson delta),
      { tr with argumentsStreamed := insert outputIndex tr.argumentsStreamed })
  | .reasoningSummaryPartAdded outputIndex summaryIndex =>
    .ok (if 0 < summaryIndex then tr.thinkingDelta outputIndex ['\n', '\n'] else ([], tr))
  | .reasoningSummaryTextDelta outputIndex delta => .ok (tr.thinkingDelta outputIndex delta)
  | .outputItemDone outputIndex item => .ok (tr.itemDone library name outputIndex item)
  | .completed response | .incomplete response => .ok (tr.finish response)
  | .failed code | .error code => .error code
  | .other => .ok ([], tr)

/-- `_stream_events`: the events as far as they come, and the failure if one ends them. -/
def streamEvents (tr : StreamTranslator) (name : Text) :
    List Event → List (MessageEvent Dict) × Option (Option Text)
  | [] => ([], none)
  | event :: events =>
    match tr.translate library name event with
    | .error code => ([], some code)
    | .ok (out, tr) =>
      let (rest, failure) := tr.streamEvents name events
      (out ++ rest, failure)

end StreamTranslator

/-! ### Samples -/

/-- A library for examples: one text is JSON, and a name is its own digest. -/
def sampleLibrary : Library (List Text) where
  loads text := if text = ['{', '}'] then some (.dict []) else none
  dumps _ := ['{', '}']
  empty := []
  sha256 text := text.map fun c => Fin.ofNat 256 c.toNat

def sampleResponse (output : List OutputItem) : Response :=
  { id := some ['r'], model := ['m'], status := .completed, output := output, usage := none }

end Otari.Messages

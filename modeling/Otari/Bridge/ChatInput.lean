import Otari.Support.Json

/-!
# Bridge — ChatInput — the input of a response as chat messages

`_messages` of `services/inference/_responses_bridge.py`, and what it calls: an item becomes a chat
message, a call on the assistant turn before it, or a tool result, and a result whose call is not in
the transcript becomes user text (`_fold_orphan_tool_results`).

The items of a request are of any shape.  `repr` is Python's text of a number, a list or a
dictionary; the text of a string is the string.
-/

namespace Otari.Bridge.Input
open Documents (Json Fields get)

/-! ### Values -/

/-- `item.get(key)`. -/
def field (item : Fields) (key : String) : Json := (get item key).getD .null

def truthy : Json → Bool
  | .null => false
  | .bool b => b
  | .num q => q ≠ 0
  | .str s => s ≠ ""
  | .arr items => items ≠ []
  | .obj fields => fields ≠ []

/-- `value or other`. -/
def orElse (value other : Json) : Json := if truthy value then value else other

/-- `value == text`. -/
def isText (text : String) : Json → Bool
  | .str s => s = text
  | _ => false

@[simp] theorem isText_iff {text : String} {value : Json} :
    isText text value ↔ value = .str text := by
  cases value <;> simp [isText]

inductive Refusal where
  /-- `UnsupportedParameterError`, with its note. -/
  | unsupported (parameter provider note : String)
  /-- A value of a type the code cannot iterate or look up. -/
  | typeError

/-- `for … in value`. -/
def iterate : Json → Except Refusal (List Json)
  | .arr items => .ok items
  | .obj fields => .ok (fields.map fun entry => .str entry.1)
  | .str s => .ok (s.toList.map fun c => .str (String.singleton c))
  | _ => .error .typeError

def bridgeNote : String :=
  "This provider has no Responses API, so the gateway serves the request as a chat completion."

def textPartTypes : List String := ["input_text", "output_text", "text"]

/-! ### Messages -/

structure ToolCall where
  id : Json
  name : Json
  arguments : Json

/-- A chat message.  A key that is absent reads as one that is `None`. -/
structure ChatMessage where
  role : Json
  content : Json
  toolCalls : List ToolCall := []
  toolCallId : Json := .null

section
variable (repr : Json → String) (provider : String)

/-- `str(value)`. -/
def text : Json → String
  | .null => "None"
  | .bool true => "True"
  | .bool false => "False"
  | .str s => s
  | value => repr value

def unsupportedPart (partType : Json) : Refusal :=
  .unsupported ("input content type '" ++ text repr partType ++ "'") provider bridgeNote

/-- A part's text and refusal as `_text_of` joins them. -/
def partText (raw : Json) : Except Refusal String :=
  match raw with
  | .obj part =>
    match field part "type" with
    | .arr _ | .obj _ => .error .typeError
    | .str type =>
      if type ∈ textPartTypes then .ok (text repr (orElse (field part "text") (.str "")))
      else if type = "refusal" then .ok (text repr (orElse (field part "refusal") (.str "")))
      else .error (unsupportedPart repr provider (.str type))
    | partType => .error (unsupportedPart repr provider partType)
  | _ => .error (unsupportedPart repr provider .null)

/-- `_text_of`. -/
def textOf (content : Json) : Except Refusal String :=
  match content with
  | .null => .ok ""
  | .str s => .ok s
  | content => do
    let parts ← iterate content
    let texts ← parts.mapM (partText repr provider)
    pure (String.join texts)

/-- A field that is copied where it is truthy. -/
def copied (part : Fields) (key : String) : Fields :=
  if truthy (field part key) then [(key, field part key)] else []

/-- `_chat_part`. -/
def chatPart (raw : Json) : Except Refusal Json :=
  match raw with
  | .obj part =>
    match field part "type" with
    | .arr _ | .obj _ => .error .typeError
    | .str type =>
      if type ∈ textPartTypes then
        .ok (.obj [("type", .str "text"), ("text", orElse (field part "text") (.str ""))])
      else if type = "input_image" ∧ truthy (field part "image_url") then
        .ok (.obj [("type", .str "image_url"),
          ("image_url", .obj (("url", field part "image_url") :: copied part "detail"))])
      else if type = "input_file" ∧
          (truthy (field part "file_data") || truthy (field part "file_id")) then
        .ok (.obj [("type", .str "file"),
          ("file", .obj (["file_data", "file_id", "filename"].flatMap (copied part)))])
      else .error (unsupportedPart repr provider (.str type))
    | partType => .error (unsupportedPart repr provider partType)
  | _ => .error (unsupportedPart repr provider .null)

/-- The role of a message, a developer's being the system's. -/
def chatRole (item : Fields) : Json :=
  if isText "developer" (field item "role") then .str "system" else field item "role"

/-- Whether the content of a message is flattened to a string. -/
def flattens (item : Fields) : Bool :=
  isText "assistant" (chatRole item) || isText "system" (chatRole item)
    || match field item "content" with | .str _ => true | _ => false

/-- `_chat_message`. -/
def chatMessage (item : Fields) : Except Refusal ChatMessage :=
  if flattens item then do
    let flat ← textOf repr provider (field item "content")
    pure { role := chatRole item, content := .str flat }
  else do
    let parts ← iterate (orElse (field item "content") (.arr []))
    let parts ← parts.mapM (chatPart repr provider)
    pure { role := chatRole item, content := .arr parts }

/-- The call of a `function_call` item. -/
def toolCall (item : Fields) : ToolCall where
  id := field item "call_id"
  name := field item "name"
  arguments := orElse (field item "arguments") (.str "\x7b\x7d")

/-- `_append_tool_call`: on the assistant turn before it, or a turn of its own. -/
def appendToolCall (messages : List ChatMessage) (item : Fields) : List ChatMessage :=
  match messages.getLast? with
  | some last =>
    if isText "assistant" last.role then
      messages.dropLast ++ [{ last with toolCalls := last.toolCalls ++ [toolCall item] }]
    else messages ++ [{ role := .str "assistant", content := .null, toolCalls := [toolCall item] }]
  | none => [{ role := .str "assistant", content := .null, toolCalls := [toolCall item] }]

/-- The type of an item: a message may leave its own out. -/
def itemType (item : Fields) : Json :=
  if truthy (field item "type") then field item "type"
  else if (get item "role").isSome then .str "message"
  else .null

/-- One item of the loop of `_messages`. -/
def addItem (messages : List ChatMessage) (raw : Json) : Except Refusal (List ChatMessage) :=
  match raw with
  | .obj item =>
    if isText "message" (itemType item) then do
      let message ← chatMessage repr provider item
      pure (messages ++ [message])
    else if isText "function_call" (itemType item) then .ok (appendToolCall messages item)
    else if isText "function_call_output" (itemType item) then do
      let content ← textOf repr provider (field item "output")
      pure (messages ++ [{
        role := .str "tool", toolCallId := field item "call_id", content := .str content }])
    else if isText "reasoning" (itemType item) then .ok messages
    else
      .error (.unsupported ("input item type '" ++ text repr (itemType item) ++ "'") provider
        bridgeNote)
  | _ => .error (.unsupported "input" provider bridgeNote)

/-- `_resolve_item_references`, with the items the bridge minted by their ids. -/
def resolveItemReferences (minted : List (String × Fields)) (items : List Json) : List Json :=
  items.filterMap fun raw =>
    match raw with
    | .obj item =>
      if isText "item_reference" (field item "type") then
        (get minted (text repr (field item "id"))).map .obj
      else some raw
    | _ => some raw

/-- The user text a tool result without its call becomes. -/
def orphanText (content : Json) : String :=
  "[tool result]\n" ++ text repr (orElse content (.str ""))

/-- The loop of `_fold_orphan_tool_results`, with the texts of the ids of the calls so far. -/
def foldOrphans (knownCalls : List String) : List ChatMessage → List ChatMessage
  | [] => []
  | message :: rest =>
    let knownCalls := knownCalls ++ message.toolCalls.map fun call => text repr call.id
    let folded : ChatMessage :=
      if isText "tool" message.role ∧ text repr message.toolCallId ∉ knownCalls then
        { role := .str "user", content := .str (orphanText repr message.content) }
      else message
    folded :: foldOrphans knownCalls rest

def systemMessage (instructions : Json) : List ChatMessage :=
  match instructions with
  | .str s => if s = "" then [] else [{ role := .str "system", content := .str s }]
  | _ => []

/-- `_messages`. -/
def messages (minted : List (String × Fields)) (inputData instructions : Json) :
    Except Refusal (List ChatMessage) :=
  match inputData with
  | .str s => .ok (systemMessage instructions ++ [{ role := .str "user", content := .str s }])
  | inputData => do
    let raw ← iterate (orElse inputData (.arr []))
    let added ← (resolveItemReferences repr minted raw).foldlM (addItem repr provider)
      (systemMessage instructions)
    pure (foldOrphans repr [] added)

end

end Otari.Bridge.Input

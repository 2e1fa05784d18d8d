import Otari.Bridge.NoOrphans
import Otari.Bridge.Responses

/-!
# Bridge — Conversations — a conversation sent back as input

A client that keeps a conversation sends each response's items back with its next request, whole or
by the ids the bridge minted for them.  The chat messages made of them are the conversation's:
`_messages` undoes `_completion_to_response`, but for the reasoning, which is dropped.
-/

namespace Otari.Bridge.Input
open List
open Documents (Json Fields get)

/-! ### Items on the wire -/

def partFields : Part → Fields
  | .reasoningText text => [("type", .str "reasoning_text"), ("text", .str (.ofList text))]
  | .outputText text => [("type", .str "output_text"), ("text", .str (.ofList text)),
      ("annotations", .arr []), ("logprobs", .arr [])]
  | .refusal refusal => [("type", .str "refusal"), ("refusal", .str (.ofList refusal))]

def statusText : Status → String
  | .inProgress => "in_progress"
  | .completed => "completed"
  | .incomplete => "incomplete"

section
variable (mint : Stem → ℕ → String) (minted : List (String × Fields))

/-- The text of an id, where `mint` is that of one the gateway minted. -/
def idText : Id → String
  | .given text => .ofList text
  | .minted stem n => mint stem n

def itemFields : OutputItem → Fields
  | .reasoning id content status => [("type", .str "reasoning"), ("id", .str (idText mint id)),
      ("summary", .arr []), ("content", .arr (content.map (.obj ∘ partFields))),
      ("status", .str (statusText status))]
  | .message id content status => [("type", .str "message"), ("id", .str (idText mint id)),
      ("role", .str "assistant"), ("status", .str (statusText status)),
      ("content", .arr (content.map (.obj ∘ partFields)))]
  | .functionCall id callId name arguments status => [("type", .str "function_call"),
      ("id", .str (idText mint id)), ("call_id", .str (idText mint callId)),
      ("name", .str (.ofList name)), ("arguments", .str (.ofList arguments)),
      ("status", .str (statusText status))]

/-- An item is sent back whole, or by its id, under which a reasoning item is not kept. -/
def Sends (raw : Json) (item : OutputItem) : Prop :=
  raw = .obj (itemFields mint item) ∨
    ∃ id, raw = .obj [("type", .str "item_reference"), ("id", .str id)] ∧
      (get minted id = some (itemFields mint item) ∨
        get minted id = none ∧ ∃ id content status, item = .reasoning id content status)

/-! ### Conversations -/

/-- A turn: what the user says, a completion's message, its ids numbered from `n`, or what a tool
answered a call. -/
inductive Turn where
  | user (said : String)
  | reply (message : CompletionMessage) (n : ℕ)
  | result (callId output : String)

def Turn.isReply : Turn → Bool
  | .reply _ _ => true
  | _ => false

/-- The input items a client sends for a turn. -/
def Turn.Sent : Turn → List Json → Prop
  | .user said, raws => raws = [.obj [("role", .str "user"), ("content", .str said)]]
  | .result callId output, raws => raws = [.obj [("type", .str "function_call_output"),
      ("call_id", .str callId), ("output", .str output)]]
  | .reply message n, raws => List.Forall₂ (Sends mint minted) raws (messageOutput message n)

end

/-- The function calls of a message, with their ids. -/
def calledOf (message : CompletionMessage) : List (Text × FunctionCall) :=
  message.toolCalls.filterMap fun call => call.function.map fun function => (call.id, function)

def chatCall (called : Text × FunctionCall) : ToolCall where
  id := .str (.ofList called.1)
  name := .str (.ofList called.2.name)
  arguments := orElse (.str (.ofList (called.2.arguments.getD []))) (.str "\x7b\x7d")

def Says (message : CompletionMessage) : Prop :=
  (Bridge.truthy message.content).isSome ∨ (Bridge.truthy message.refusal).isSome

instance (message : CompletionMessage) : Decidable (Says message) :=
  inferInstanceAs (Decidable (_ ∨ _))

def replyText (message : CompletionMessage) : String :=
  .ofList (message.content.getD [] ++ message.refusal.getD [])

/-- The chat messages of a turn.  A reply that neither says nor calls anything is none. -/
def Turn.messages : Turn → List ChatMessage
  | .user said => [{ role := .str "user", content := .str said }]
  | .result callId output =>
    [{ role := .str "tool", toolCallId := .str callId, content := .str output }]
  | .reply message _ =>
    if ¬ Says message ∧ calledOf message = [] then []
    else [{
      role := .str "assistant"
      content := if Says message then .str (replyText message) else .null
      toolCalls := (calledOf message).map chatCall }]

/-! ### A reply -/

section
variable {repr : Json → String} {provider : String} {mint : Stem → ℕ → String}
  {minted : List (String × Fields)} {prior : List ChatMessage} {item : Fields}

/-- The last message is no turn that takes a call. -/
def Closed (prior : List ChatMessage) : Prop :=
  ∀ last ∈ prior.getLast?, isText "assistant" last.role = false

theorem appendToolCall_closed (h : Closed prior) (item : Fields) :
    appendToolCall prior item = prior ++
      [{ role := .str "assistant", content := .null, toolCalls := [toolCall item] }] := by
  unfold appendToolCall
  cases hlast : prior.getLast? with
  | none => rw [getLast?_eq_none_iff.mp hlast, nil_append]
  | some last => simp [h last hlast]

theorem addItem_assistant {flat : String} (htype : field item "type" = .str "message")
    (hrole : field item "role" = .str "assistant")
    (hflat : textOf repr provider (field item "content") = .ok flat) :
    addItem repr provider prior (.obj item)
      = .ok (prior ++ [{ role := .str "assistant", content := .str flat }]) := by
  have hmessage : itemType item = .str "message" := by simp [itemType, htype, truthy]
  simp [addItem, hmessage, chatMessage, flattens, chatRole, hrole, hflat, isText]

theorem addItem_call (hitem : field item "type" = .str "function_call") :
    addItem repr provider prior (.obj item) = .ok (appendToolCall prior item) := by
  have htype : itemType item = .str "function_call" := by simp [itemType, hitem, truthy]
  simp [addItem, htype, isText]

theorem foldlM_calls (turn : ChatMessage) (hturn : turn.role = .str "assistant")
    (items : List Fields) (hitems : ∀ item ∈ items, field item "type" = .str "function_call") :
    (items.map Json.obj).foldlM (addItem repr provider) (prior ++ [turn])
      = .ok (prior ++ [{ turn with toolCalls := turn.toolCalls ++ items.map toolCall }]) := by
  induction items generalizing turn with
  | nil => simp; rfl
  | cons item rest ih =>
    have hadd : appendToolCall (prior ++ [turn]) item
        = prior ++ [{ turn with toolCalls := turn.toolCalls ++ [toolCall item] }] := by
      simp [appendToolCall, hturn, isText]
    rw [map_cons, foldlM_cons, addItem_call (hitems item mem_cons_self), hadd]
    refine (ih { turn with toolCalls := turn.toolCalls ++ [toolCall item] } hturn
      fun item hitem => hitems item (mem_cons_of_mem _ hitem)).trans ?_
    simp

variable (message : CompletionMessage) (n : ℕ)

def callItems : List OutputItem :=
  (calledOf message).zipIdx.map fun ((id, function), i) =>
    .functionCall (.minted .fc (n + 2 + i)) (.given id) function.name
      (function.arguments.getD []) .completed

theorem map_callItems (mint : Stem → ℕ → String) :
    ((callItems message n).map (itemFields mint)).map toolCall
      = (calledOf message).map chatCall := by
  rw [callItems, map_map, map_map,
    ← congrArg (map chatCall) (zipIdx_map_fst 0 (calledOf message)), map_map]
  exact map_congr_left fun _ _ => rfl

theorem textOf_content :
    textOf repr provider (.arr (((Bridge.truthy message.content).toList.map Part.outputText ++
      (Bridge.truthy message.refusal).toList.map Part.refusal).map (.obj ∘ partFields)))
      = .ok (replyText message) := by
  have hself (s : String) : text repr (orElse (.str s) (.str "")) = s := by
    by_cases h : s = "" <;> simp [orElse, truthy, text, h]
  have hpart (part : Text → Part) (said : Option Text) (h : ∀ said,
      partText repr provider (.obj (partFields (part said))) = .ok (.ofList said)) :
      ((Bridge.truthy said).toList.map fun said => Json.obj (partFields (part said))).mapM
        (partText repr provider) = .ok ((Bridge.truthy said).toList.map String.ofList) := by
    cases Bridge.truthy said with
    | none => rfl
    | some said => simp [h]
  have hjoin (said : Option Text) : String.join ((Bridge.truthy said).toList.map String.ofList)
      = .ofList (said.getD []) := by
    rcases said with _ | _ | ⟨c, said⟩ <;> simp [Bridge.truthy, Option.filter, String.join]
  have hcontent := hpart .outputText message.content fun _ => congrArg Except.ok (hself _)
  have hrefusal := hpart .refusal message.refusal fun _ => congrArg Except.ok (hself _)
  rw [map_append, map_map, map_map]
  change Except.bind (mapM (partText repr provider) _) _ = _
  rw [mapM_append]
  simp only [Function.comp_def, hcontent, hrefusal]
  refine congrArg Except.ok ?_
  rw [String.join_append, hjoin, hjoin, replyText, String.ofList_append]

theorem foldlM_reply (h : Closed prior) :
    ((messageOutput message n).map (.obj ∘ itemFields mint)).foldlM (addItem repr provider) prior
      = .ok (prior ++ (Turn.reply message n).messages) := by
  have hcalls : ∀ item ∈ (callItems message n).map (itemFields mint),
      field item "type" = .str "function_call" := by
    intro item hitem
    obtain ⟨call, hcall, rfl⟩ := mem_map.mp hitem
    obtain ⟨entry, -, rfl⟩ := mem_map.mp hcall
    rfl
  have hreasoning (more : List Json) : foldlM (addItem repr provider) prior
      (((Bridge.truthy message.reasoning).toList.map fun text =>
        Json.obj (itemFields mint (reasoningItem (.minted .reasoning n) text .completed))) ++ more)
      = more.foldlM (addItem repr provider) prior := by
    cases Bridge.truthy message.reasoning <;> rfl
  have houtput : messageOutput message n = ((Bridge.truthy message.reasoning).toList.map fun text =>
      reasoningItem (.minted .reasoning n) text .completed) ++ (if Says message then
        [messageItem (.minted .msg (n + 1)) (Bridge.truthy message.content) .completed
          message.refusal] else []) ++ callItems message n := rfl
  have hmap := map_callItems message n mint
  rw [houtput, append_assoc, map_append, map_map]
  refine (hreasoning _).trans ?_
  rw [Turn.messages]
  by_cases hsaid : Says message
  · have hmessage : addItem repr provider prior (.obj (itemFields mint (messageItem
        (.minted .msg (n + 1)) (Bridge.truthy message.content) .completed message.refusal)))
        = .ok (prior ++ [{ role := .str "assistant", content := .str (replyText message) }]) :=
      addItem_assistant rfl rfl (textOf_content message)
    rw [if_pos hsaid, if_neg (fun hnone => hnone.1 hsaid), if_pos hsaid, singleton_append,
      map_cons, foldlM_cons, ← map_map, ← hmap]
    exact (congrArg (· >>= _) hmessage).trans (foldlM_calls _ rfl _ hcalls)
  · rw [if_neg hsaid, nil_append, if_neg hsaid, ← map_map]
    cases hitems : (callItems message n).map (itemFields mint) with
    | nil =>
      rw [hitems] at hmap
      rw [if_pos ⟨hsaid, map_eq_nil_iff.mp hmap.symm⟩, append_nil]
      rfl
    | cons item rest =>
      -- the first call opens a turn of its own
      rw [hitems] at hmap hcalls
      rw [if_neg (fun hnone => by simp [hnone.2] at hmap), ← hmap, map_cons, foldlM_cons,
        addItem_call (hcalls item mem_cons_self), appendToolCall_closed h]
      exact foldlM_calls _ rfl rest fun item hitem => hcalls item (mem_cons_of_mem _ hitem)

end

/-! ### A conversation -/

section
variable {repr : Json → String} {provider : String} {mint : Stem → ℕ → String}
  {minted : List (String × Fields)} {prior : List ChatMessage}

theorem resolve_append (raws more : List Json) : resolveItemReferences repr minted (raws ++ more)
      = resolveItemReferences repr minted raws ++ resolveItemReferences repr minted more :=
  filterMap_append

theorem resolve_reference (id : String) :
    resolveItemReferences repr minted [.obj [("type", .str "item_reference"), ("id", .str id)]]
      = ((get minted id).map Json.obj).toList := by
  have hresolved : resolveItemReferences repr minted
      [.obj [("type", .str "item_reference"), ("id", .str id)]]
      = [(get minted id).map Json.obj].filterMap fun found => found := rfl
  rw [hresolved]
  cases get minted id <;> rfl

theorem foldlM_sends {raws : List Json} {items : List OutputItem}
    (h : List.Forall₂ (Sends mint minted) raws items) :
    (resolveItemReferences repr minted raws).foldlM (addItem repr provider) prior
      = (items.map (.obj ∘ itemFields mint)).foldlM (addItem repr provider) prior := by
  induction h generalizing prior with
  | nil => rfl
  | @cons raw item raws items hsends _ ih =>
    have hone (hresolved : resolveItemReferences repr minted [raw]
        = [.obj (itemFields mint item)]) :
        (resolveItemReferences repr minted ([raw] ++ raws)).foldlM (addItem repr provider) prior
          = ((item :: items).map (.obj ∘ itemFields mint)).foldlM (addItem repr provider)
            prior := by
      rw [resolve_append, hresolved, foldlM_append]
      simp only [foldlM_cons, foldlM_nil, bind_pure, ih, map_cons]
      rfl
    rcases hsends with rfl | ⟨id, rfl, hkept | ⟨hforgotten, _, content, status, rfl⟩⟩
    · exact hone (by cases item <;> rfl)
    · exact hone (by rw [resolve_reference, hkept]; rfl)
    · rw [← singleton_append, resolve_append, resolve_reference, hforgotten]
      exact ih

theorem foldlM_turn {turn : Turn} {raws : List Json} (hsent : turn.Sent mint minted raws)
    (h : turn.isReply → Closed prior) :
    (resolveItemReferences repr minted raws).foldlM (addItem repr provider) prior
      = .ok (prior ++ turn.messages) := by
  cases turn with
  | user said | result callId output =>
    obtain rfl := hsent
    rfl
  | reply message n => exact (foldlM_sends hsent).trans (foldlM_reply message n (h rfl))

theorem closed_turn {turn : Turn} (h : ¬ turn.isReply) : Closed (prior ++ turn.messages) := by
  cases turn with
  | user said | result callId output => simp [Closed, Turn.messages, isText]
  | reply message n => exact absurd rfl h

theorem foldlM_turns {turns : List Turn} {raws : List (List Json)}
    (hsent : List.Forall₂ (Turn.Sent mint minted) turns raws)
    (halternate : turns.IsChain fun turn next => ¬ (turn.isReply ∧ next.isReply))
    (h : ∀ turn ∈ turns.head?, turn.isReply → Closed prior) :
    (resolveItemReferences repr minted raws.flatten).foldlM (addItem repr provider) prior
      = .ok (prior ++ turns.flatMap Turn.messages) := by
  induction hsent generalizing prior with
  | nil => rw [flatMap_nil, append_nil]; rfl
  | @cons turn raw turns raws hturn _ ih =>
    have hnext : ∀ next ∈ turns.head?, next.isReply → Closed (prior ++ turn.messages) := by
      intro next hnext hreply
      refine closed_turn fun hturn => ?_
      obtain ⟨rest, rfl⟩ := head?_eq_some_iff.mp hnext
      exact (isChain_cons_cons.mp halternate).1 ⟨hturn, hreply⟩
    rw [flatten_cons, resolve_append, foldlM_append, foldlM_turn hturn (h turn rfl), flatMap_cons,
      ← append_assoc]
    exact ih halternate.tail hnext

theorem foldOrphans_preceded {chat before : List ChatMessage} {known : List String}
    (hknown : ∀ turn ∈ before, ∀ call ∈ turn.toolCalls, text repr call.id ∈ known)
    (h : Preceded before chat) : foldOrphans repr known chat = chat := by
  induction chat generalizing before known with
  | nil => rfl
  | cons message rest ih =>
    have hrest : foldOrphans repr (known ++ message.toolCalls.map fun call => text repr call.id)
        rest = rest := by
      refine ih (fun turn hturn call hcall => ?_) h.2
      rcases mem_append.mp hturn with hold | hnew
      · exact mem_append_left _ (hknown turn hold call hcall)
      · rw [mem_singleton.mp hnew] at hcall
        exact mem_append_right _ (mem_map_of_mem hcall)
    rw [foldOrphans, hrest, if_neg]
    rintro ⟨htool, hunknown⟩
    obtain ⟨turn, hturn, -, call, hcall, hid⟩ := h.1 (isText_iff.mp htool)
    exact hunknown (mem_append_left _ (hid ▸ hknown turn hturn call hcall))

/-- **A conversation sent back is the conversation.**  Where no reply follows another and each
result comes after its call, the chat messages are the turns', whichever items are sent whole and
whichever by their ids. -/
theorem conversation_replays (repr : Json → String) (provider : String)
    (mint : Stem → ℕ → String) (minted : List (String × Fields)) (instructions : Json)
    (turns : List Turn) (raws : List (List Json))
    (hsent : List.Forall₂ (Turn.Sent mint minted) turns raws)
    (halternate : turns.IsChain fun turn next => ¬ (turn.isReply ∧ next.isReply))
    (hanswered : Preceded [] (systemMessage instructions ++ turns.flatMap Turn.messages)) :
    messages repr provider minted (.arr raws.flatten) instructions
      = .ok (systemMessage instructions ++ turns.flatMap Turn.messages) := by
  have hinput (items : List Json) : orElse (.arr items) (.arr []) = .arr items := by
    cases items <;> rfl
  have hclosed : Closed (systemMessage instructions) := by
    unfold systemMessage
    split
    · split <;> simp [Closed, isText]
    · simp [Closed]
  rw [messages, hinput]
  · change (foldlM (addItem repr provider) _ _ >>= _) = _
    rw [foldlM_turns hsent halternate fun _ _ _ => hclosed]
    exact congrArg Except.ok (foldOrphans_preceded (by simp) hanswered)
  · simp

theorem conversation_replays_call :
    let call : CompletionMessage := { toolCalls := [⟨"c".toList, some ⟨"f".toList, none⟩⟩] }
    let item : Fields := [("type", .str "function_call"), ("id", .str "fc_1"),
      ("call_id", .str "c"), ("name", .str "f"), ("arguments", .str ""),
      ("status", .str "completed")]
    messages (fun _ => "") "groq" [("fc_1", item)] (.arr [
        .obj [("role", .str "user"), ("content", .str "go")],
        .obj [("type", .str "item_reference"), ("id", .str "fc_1")],
        .obj [("type", .str "function_call_output"), ("call_id", .str "c"), ("output", .str "x")]])
        .null
      = .ok ([Turn.user "go", .reply call 1, .result "c" "x"].flatMap Turn.messages) := by
  intro call item
  refine conversation_replays (fun _ => "") "groq" (fun _ _ => "fc_1") [("fc_1", item)] .null
    [.user "go", .reply call 1, .result "c" "x"] [[_], [_], [_]]
    (.cons rfl (.cons (.cons (.inr ⟨"fc_1", rfl, .inl rfl⟩) .nil) (.cons rfl .nil))) ?_ ?_
  · simp [Turn.isReply]
  · simp [systemMessage, Turn.messages, Preceded, calledOf, chatCall, call, Says, Bridge.truthy]

end

end Otari.Bridge.Input

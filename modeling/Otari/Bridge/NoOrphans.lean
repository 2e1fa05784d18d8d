import Otari.Bridge.ChatInput
import Otari.Support.Outcome

/-!
# Bridge — NoOrphans — what the chat messages keep of the items

The messages show the items' text, calls and results in their order (`Shows`), and a tool result is
left a tool message exactly where the text of its id is that of an earlier call's.  Ids are compared
by their text, so that call is the result's own exactly where the ids are told apart by it
(`IdsApart`).
-/

namespace Otari.Bridge.Input
open List
open Documents (Json Fields get)

/-! ### Pieces -/

/-- What is said in an item or a message: text, a call, or the result of a call. -/
inductive Piece where
  | text (said : String)
  | call (call : ToolCall)
  | result (id content : Json)

section
variable {repr : Json → String} {provider : String}

def saidIn (repr : Json → String) : Json → String
  | .obj part =>
    match field part "type" with
    | .str type =>
      if type ∈ textPartTypes then text repr (orElse (field part "text") (.str ""))
      else if type = "refusal" then text repr (orElse (field part "refusal") (.str ""))
      else ""
    | _ => ""
  | _ => ""

/-- The text of a content, of an item or of a message. -/
def said (repr : Json → String) : Json → String
  | .str s => s
  | .arr parts => String.join (parts.map (saidIn repr))
  | _ => ""

/-- The pieces of an item.  A message of the role of a tool is a result whose call it does not
name. -/
def itemPieces (repr : Json → String) (provider : String) : Json → List Piece
  | .obj item =>
    if isText "message" (itemType item) then
      if isText "tool" (chatRole item) then
        match chatMessage repr provider item with
        | .ok message => [.result .null message.content]
        | .error _ => []
      else [.text (said repr (field item "content"))]
    else if isText "function_call" (itemType item) then [.call (toolCall item)]
    else if isText "function_call_output" (itemType item) then
      [.result (field item "call_id") (.str (said repr (field item "output")))]
    else []
  | _ => []

def chatPieces (repr : Json → String) (message : ChatMessage) : List Piece :=
  if isText "tool" message.role then [.result message.toolCallId message.content]
  else
    (match message.content with
      | .null => []
      | content => [.text (said repr content)])
    ++ message.toolCalls.map .call

/-- A piece is shown as it is, or is a result shown as user text. -/
inductive Shows (repr : Json → String) : Piece → Piece → Prop where
  | same (piece : Piece) : Shows repr piece piece
  | folded (id content : Json) :
      Shows repr (.result id content) (.text (orphanText repr content))

/-! ### Text -/

theorem saidIn_of_partText {part : Json} {s : String} (h : partText repr provider part = .ok s) :
    saidIn repr part = s := by
  cases part with
  | obj fields =>
    simp only [partText] at h
    simp only [saidIn]
    cases htype : field fields "type" with
    | str type =>
      simp only [htype] at h ⊢
      split at h
      · rename_i hin
        rw [if_pos hin]
        exact Except.ok.inj h
      · rename_i hin
        rw [if_neg hin]
        split at h
        · rename_i hrefusal
          rw [if_pos hrefusal]
          exact Except.ok.inj h
        · cases h
    | _ =>
      simp only [htype] at h
      cases h
  | _ => cases h

theorem ok_of_bind {α β ε : Type} {x : Except ε α} {f : α → Except ε β} {b : β}
    (h : (x >>= f) = .ok b) : ∃ a, x = .ok a ∧ f a = .ok b := by
  cases x with
  | error e => cases h
  | ok a => exact ⟨a, rfl, h⟩

theorem map_saidIn_of_partText {parts : List Json} {texts : List String}
    (h : List.Forall₂ (fun part s => partText repr provider part = .ok s) parts texts) :
    parts.map (saidIn repr) = texts := by
  induction h with
  | nil => rfl
  | cons hpart _ ih => rw [map_cons, saidIn_of_partText hpart, ih]

theorem eq_nil_of_keys {α : Type} {f : Json → Except Refusal α} {fields : Fields} {l : List α}
    (hf : ∀ s a, f (.str s) ≠ .ok a)
    (h : (fields.map fun entry => Json.str entry.1).mapM f = .ok l) : l = [] := by
  cases fields with
  | nil => exact (Except.ok.inj h).symm
  | cons entry rest =>
    cases forall₂_of_mapM h with
    | cons hfirst _ => exact absurd hfirst (hf _ _)

theorem partText_str_ne (s a : String) : partText repr provider (.str s) ≠ .ok a := by
  intro h
  cases h

theorem chatPart_str_ne (s : String) (a : Json) : chatPart repr provider (.str s) ≠ .ok a := by
  intro h
  cases h

theorem said_of_textOf {content : Json} {s : String} (h : textOf repr provider content = .ok s) :
    said repr content = s := by
  cases content with
  | null => exact Except.ok.inj h
  | str s' => exact Except.ok.inj h
  | bool b => cases h
  | num q => cases h
  | arr parts =>
    obtain ⟨_, hiterate, h⟩ := ok_of_bind h
    obtain rfl := Except.ok.inj hiterate
    obtain ⟨texts, hparts, h⟩ := ok_of_bind h
    rw [said, map_saidIn_of_partText (forall₂_of_mapM hparts)]
    exact Except.ok.inj h
  | obj fields =>
    obtain ⟨_, hiterate, h⟩ := ok_of_bind h
    obtain rfl := Except.ok.inj hiterate
    obtain ⟨texts, hparts, h⟩ := ok_of_bind h
    rw [eq_nil_of_keys partText_str_ne hparts] at h
    exact Except.ok.inj h

theorem saidIn_of_type {part : Fields} {type : String} (h : field part "type" = .str type) :
    saidIn repr (.obj part) =
      if type ∈ textPartTypes then text repr (orElse (field part "text") (.str ""))
      else if type = "refusal" then text repr (orElse (field part "refusal") (.str ""))
      else "" := by
  rw [saidIn, h]

theorem orElse_self (value other : Json) : orElse (orElse value other) other = orElse value other := by
  unfold orElse
  by_cases h : truthy value
  · rw [if_pos h, if_pos h]
  · rw [if_neg h, ite_self]

theorem saidIn_of_chatPart {part chat : Json} (h : chatPart repr provider part = .ok chat) :
    saidIn repr chat = saidIn repr part := by
  unfold chatPart at h
  split at h
  · rename_i fields
    split at h
    · cases h
    · cases h
    · rename_i type htype
      split at h
      · rename_i hin
        rw [← Except.ok.inj h, saidIn_of_type htype, if_pos hin]
        exact congrArg (text repr) (orElse_self _ _)
      · split at h
        · rename_i himage
          rw [← Except.ok.inj h, saidIn_of_type htype, himage.1]
          rfl
        · split at h
          · rename_i hfile
            rw [← Except.ok.inj h, saidIn_of_type htype, hfile.1]
            rfl
          · cases h
    · cases h
  · cases h

theorem map_saidIn_of_chatPart {parts chats : List Json}
    (h : List.Forall₂ (fun part chat => chatPart repr provider part = .ok chat) parts chats) :
    chats.map (saidIn repr) = parts.map (saidIn repr) := by
  induction h with
  | nil => rfl
  | cons hpart _ ih => rw [map_cons, map_cons, saidIn_of_chatPart hpart, ih]

theorem said_of_chatParts {content : Json} {parts chats : List Json}
    (hstr : ∀ s, content ≠ .str s) (hparts : iterate (orElse content (.arr [])) = .ok parts)
    (hchats : parts.mapM (chatPart repr provider) = .ok chats) :
    said repr (.arr chats) = said repr content := by
  have hnil : ∀ {l : List Json}, iterate (.arr []) = .ok l → l = [] :=
    fun h => (Except.ok.inj h).symm
  have hsaid := map_saidIn_of_chatPart (forall₂_of_mapM hchats)
  rw [said, hsaid]
  unfold orElse at hparts
  cases content with
  | str s => exact absurd rfl (hstr s)
  | null => rw [hnil hparts]; rfl
  | bool b =>
    cases b with
    | true => cases hparts
    | false => rw [hnil hparts]; rfl
  | num q =>
    split at hparts
    · cases hparts
    · rw [hnil hparts]; rfl
  | arr items =>
    split at hparts
    · rw [← Except.ok.inj hparts]; rfl
    · rename_i hempty
      have hitems : items = [] := by simpa [truthy] using hempty
      rw [hnil hparts, hitems]; rfl
  | obj fields =>
    split at hparts
    · rw [← Except.ok.inj hparts] at hchats hsaid ⊢
      rw [← hsaid, eq_nil_of_keys chatPart_str_ne hchats]
      rfl
    · rw [hnil hparts]; rfl

/-! ### The loop -/

def CallsOnTurns (messages : List ChatMessage) : Prop :=
  ∀ message ∈ messages, message.toolCalls ≠ [] → message.role = .str "assistant"

theorem CallsOnTurns.append {ms ms' : List ChatMessage} (h : CallsOnTurns ms)
    (h' : CallsOnTurns ms') : CallsOnTurns (ms ++ ms') :=
  fun message hmem => (mem_append.mp hmem).elim (h message) (h' message)

theorem CallsOnTurns.without {message : ChatMessage} (h : message.toolCalls = []) :
    CallsOnTurns [message] := by
  intro other hmem hcalls
  rw [mem_singleton.mp hmem] at hcalls
  exact absurd h hcalls

theorem chatMessage_pieces {item : Fields} {message : ChatMessage}
    (htype : itemType item = .str "message") (h : chatMessage repr provider item = .ok message) :
    message.toolCalls = [] ∧ chatPieces repr message = itemPieces repr provider (.obj item) := by
  have hpieces : ∀ message : ChatMessage, chatMessage repr provider item = .ok message →
      message.role = chatRole item → message.toolCalls = [] → message.toolCallId = .null →
      message.content ≠ .null → said repr message.content = said repr (field item "content") →
      chatPieces repr message = itemPieces repr provider (.obj item) := by
    intro message h hrole hcalls hid hcontent hsaid
    rw [itemPieces, if_pos (isText_iff.mpr htype), chatPieces, hrole]
    by_cases htool : isText "tool" (chatRole item)
    · rw [if_pos htool, if_pos htool, h, hid]
    · rw [if_neg htool, if_neg htool, hcalls, map_nil, append_nil]
      split
      · rename_i hnull
        exact absurd hnull hcontent
      · rw [hsaid]
  have hmessage := h
  unfold chatMessage at h
  split at h
  · obtain ⟨flat, hflat, h⟩ := ok_of_bind h
    obtain rfl := Except.ok.inj h
    exact ⟨rfl, hpieces _ hmessage rfl rfl rfl nofun (said_of_textOf hflat).symm⟩
  · rename_i hflattens
    obtain ⟨parts, hparts, h⟩ := ok_of_bind h
    obtain ⟨chats, hchats, h⟩ := ok_of_bind h
    obtain rfl := Except.ok.inj h
    refine ⟨rfl, hpieces _ hmessage rfl rfl rfl nofun ?_⟩
    refine said_of_chatParts (fun s hs => hflattens ?_) hparts hchats
    simp [flattens, hs]

theorem appendToolCall_pieces {messages : List ChatMessage} (item : Fields)
    (h : CallsOnTurns messages) : CallsOnTurns (appendToolCall messages item)
      ∧ (appendToolCall messages item).flatMap (chatPieces repr)
        = messages.flatMap (chatPieces repr) ++ [.call (toolCall item)] := by
  have hnew : ∀ ms : List ChatMessage, CallsOnTurns ms →
      CallsOnTurns
          (ms ++ [{ role := .str "assistant", content := .null, toolCalls := [toolCall item] }])
        ∧ (ms ++ [{ role := .str "assistant", content := .null, toolCalls := [toolCall item] }]
            : List ChatMessage).flatMap (chatPieces repr)
          = ms.flatMap (chatPieces repr) ++ [.call (toolCall item)] := by
    intro ms hms
    refine ⟨hms.append fun message hmem _ => ?_, ?_⟩
    · rw [mem_singleton.mp hmem]
    · rw [flatMap_append]
      rfl
  unfold appendToolCall
  cases hlast : messages.getLast? with
  | none =>
    obtain rfl := List.getLast?_eq_none_iff.mp hlast
    exact hnew [] h
  | some last =>
    obtain ⟨before, rfl⟩ := List.getLast?_eq_some_iff.mp hlast
    dsimp only
    split
    · rename_i hturn
      rw [isText_iff] at hturn
      rw [dropLast_concat]
      refine ⟨fun message hmem hcalls => ?_, ?_⟩
      · rcases mem_append.mp hmem with hbefore | hnow
        · exact h message (mem_append_left _ hbefore) hcalls
        · rw [mem_singleton.mp hnow]
          exact hturn
      · rw [flatMap_append, flatMap_append, append_assoc]
        congr 1
        simp [chatPieces, hturn, isText]
    · exact hnew _ h

theorem addItem_pieces {messages after : List ChatMessage} {raw : Json}
    (h : CallsOnTurns messages) (hadd : addItem repr provider messages raw = .ok after) :
    CallsOnTurns after ∧ after.flatMap (chatPieces repr)
        = messages.flatMap (chatPieces repr) ++ itemPieces repr provider raw := by
  unfold addItem at hadd
  split at hadd
  · rename_i item
    split at hadd
    · rename_i htype
      obtain ⟨message, hmessage, hadd⟩ := ok_of_bind hadd
      obtain rfl := Except.ok.inj hadd
      obtain ⟨hcalls, hpieces⟩ := chatMessage_pieces (isText_iff.mp htype) hmessage
      refine ⟨h.append (.without hcalls), ?_⟩
      rw [flatMap_append, flatMap_singleton, hpieces]
    · rename_i hmessage
      split at hadd
      · rename_i htype
        obtain rfl := Except.ok.inj hadd
        obtain ⟨hturns, hpieces⟩ := @appendToolCall_pieces repr messages item h
        refine ⟨hturns, ?_⟩
        rw [hpieces, itemPieces, if_neg hmessage, if_pos htype]
      · rename_i hcall
        split at hadd
        · rename_i htype
          obtain ⟨content, hcontent, hadd⟩ := ok_of_bind hadd
          obtain rfl := Except.ok.inj hadd
          refine ⟨h.append (.without rfl), ?_⟩
          rw [flatMap_append, flatMap_singleton, itemPieces, if_neg hmessage,
            if_neg hcall, if_pos htype, said_of_textOf hcontent]
          rfl
        · rename_i houtput
          split at hadd
          · obtain rfl := Except.ok.inj hadd
            refine ⟨h, ?_⟩
            rw [itemPieces, if_neg hmessage, if_neg hcall, if_neg houtput, append_nil]
          · cases hadd
  · cases hadd

theorem foldlM_pieces {items : List Json} {messages after : List ChatMessage}
    (h : CallsOnTurns messages) (hadd : items.foldlM (addItem repr provider) messages = .ok after) :
    CallsOnTurns after ∧ after.flatMap (chatPieces repr)
        = messages.flatMap (chatPieces repr) ++ items.flatMap (itemPieces repr provider) := by
  induction items generalizing messages with
  | nil =>
    obtain rfl := Except.ok.inj hadd
    exact ⟨h, by simp⟩
  | cons raw rest ih =>
    rw [foldlM_cons] at hadd
    obtain ⟨next, hnext, hadd⟩ := ok_of_bind hadd
    obtain ⟨hturns, hpieces⟩ := addItem_pieces h hnext
    obtain ⟨hafter, hall⟩ := ih hturns hadd
    exact ⟨hafter, by rw [hall, hpieces, flatMap_cons, append_assoc]⟩

/-! ### Orphans -/

/-- Every tool message comes after an assistant turn that carries a call with its id. -/
def Preceded : List ChatMessage → List ChatMessage → Prop
  | _, [] => True
  | before, message :: rest =>
    (message.role = .str "tool" → ∃ turn ∈ before, turn.role = .str "assistant" ∧
      ∃ call ∈ turn.toolCalls, call.id = message.toolCallId)
    ∧ Preceded (before ++ [message]) rest

/-- A result whose id has the text of an earlier call's id has the id of an earlier call. -/
def IdsApart (repr : Json → String) : List ToolCall → List Piece → Prop
  | _, [] => True
  | calls, .text _ :: rest => IdsApart repr calls rest
  | calls, .call call :: rest => IdsApart repr (calls ++ [call]) rest
  | calls, .result id _ :: rest =>
    ((∃ call ∈ calls, text repr call.id = text repr id) → ∃ call ∈ calls, call.id = id)
    ∧ IdsApart repr calls rest

theorem idsApart_calls (calls more : List ToolCall) (pieces : List Piece) :
    IdsApart repr calls (more.map .call ++ pieces) ↔ IdsApart repr (calls ++ more) pieces := by
  induction more generalizing calls with
  | nil => rw [map_nil, nil_append, append_nil]
  | cons call rest ih =>
    rw [map_cons, cons_append, IdsApart, ih, append_assoc]
    rfl

theorem idsApart_message {message : ChatMessage} (h : message.role ≠ .str "tool")
    (calls : List ToolCall) (pieces : List Piece) :
    IdsApart repr calls (chatPieces repr message ++ pieces)
      ↔ IdsApart repr (calls ++ message.toolCalls) pieces := by
  rw [chatPieces, if_neg (fun hrole => h (isText_iff.mp hrole)), append_assoc]
  split
  · rw [nil_append, idsApart_calls]
  · rw [singleton_append, IdsApart, idsApart_calls]

/-- The calls are those the turns so far carry. -/
def Carry (before : List ChatMessage) (calls : List ToolCall) : Prop :=
  ∀ call, call ∈ calls ↔ ∃ turn ∈ before, turn.role = .str "assistant" ∧ call ∈ turn.toolCalls

theorem Carry.push {before : List ChatMessage} {calls : List ToolCall} (h : Carry before calls)
    {message : ChatMessage} (hturn : message.toolCalls ≠ [] → message.role = .str "assistant") :
    Carry (before ++ [message]) (calls ++ message.toolCalls) := by
  intro call
  rw [mem_append, h call]
  constructor
  · rintro (⟨turn, hmem, hcarries⟩ | hcall)
    · exact ⟨turn, mem_append_left _ hmem, hcarries⟩
    · exact ⟨message, by simp, hturn (ne_nil_of_mem hcall), hcall⟩
  · rintro ⟨turn, hmem, hrole, hcall⟩
    rcases mem_append.mp hmem with hbefore | hnow
    · exact .inl ⟨turn, hbefore, hrole, hcall⟩
    · rw [mem_singleton.mp hnow] at hcall
      exact .inr hcall

theorem Carry.exists_iff {before : List ChatMessage} {calls : List ToolCall}
    (h : Carry before calls) (id : Json) :
    (∃ turn ∈ before, turn.role = .str "assistant" ∧ ∃ call ∈ turn.toolCalls, call.id = id)
      ↔ ∃ call ∈ calls, call.id = id := by
  constructor
  · rintro ⟨turn, hmem, hrole, call, hcall, hid⟩
    exact ⟨call, (h call).mpr ⟨turn, hmem, hrole, hcall⟩, hid⟩
  · rintro ⟨call, hcall, hid⟩
    obtain ⟨turn, hmem, hrole, hcarried⟩ := (h call).mp hcall
    exact ⟨turn, hmem, hrole, call, hcarried, hid⟩

theorem preceded_foldOrphans_iff {messages before : List ChatMessage} {calls : List ToolCall}
    (hturns : CallsOnTurns messages) (hcarry : Carry before calls) :
    Preceded before (foldOrphans repr (calls.map fun call => text repr call.id) messages)
      ↔ IdsApart repr calls (messages.flatMap (chatPieces repr)) := by
  induction messages generalizing before calls with
  | nil => exact Iff.rfl
  | cons message rest ih =>
    have hturn := hturns message mem_cons_self
    have hrest : CallsOnTurns rest := fun m hm => hturns m (mem_cons_of_mem _ hm)
    have hknown : (calls.map fun call => text repr call.id)
        ++ (message.toolCalls.map fun call => text repr call.id)
        = (calls ++ message.toolCalls).map fun call => text repr call.id :=
      (map_append ..).symm
    rw [foldOrphans, hknown, flatMap_cons]
    by_cases htool : message.role = .str "tool"
    · -- a tool message carries no calls
      have hcalls : message.toolCalls = [] := by
        by_contra hne
        exact absurd (htool.symm.trans (hturn hne)) (by simp)
      have hpieces : chatPieces repr message
          = [.result message.toolCallId message.content] := by
        rw [chatPieces, if_pos (isText_iff.mpr htool)]
      rw [hcalls, append_nil, hpieces, singleton_append, IdsApart]
      by_cases hmem : text repr message.toolCallId ∈ calls.map fun call => text repr call.id
      · have hsame : ∃ call ∈ calls, text repr call.id = text repr message.toolCallId :=
          mem_map.mp hmem
        have hkept : Carry (before ++ [message]) calls := by
          simpa [hcalls] using hcarry.push hturn
        rw [if_neg fun h => h.2 hmem, Preceded, ih hrest hkept, hcarry.exists_iff]
        exact and_congr_left fun _ => ⟨fun h _ => h htool, fun h _ => h hsame⟩
      · have hnone : ¬ ∃ call ∈ calls, text repr call.id = text repr message.toolCallId :=
          fun h => hmem (mem_map.mpr h)
        rw [if_pos ⟨isText_iff.mpr htool, hmem⟩, Preceded, ih hrest]
        · exact and_congr_left fun _ => ⟨fun _ h => absurd h hnone, fun _ h => by simp at h⟩
        · have hpushed := @Carry.push _ _ hcarry
            { role := .str "user", content := .str (orphanText repr message.content) } (by simp)
          simpa using hpushed
    · rw [if_neg fun h => htool (isText_iff.mp h.1), Preceded, ih hrest (hcarry.push hturn),
        idsApart_message htool]
      exact and_iff_right fun h => absurd h htool

theorem shows_foldOrphans (known : List String) (messages : List ChatMessage) :
    List.Forall₂ (Shows repr) (messages.flatMap (chatPieces repr))
      ((foldOrphans repr known messages).flatMap (chatPieces repr)) := by
  have hrefl : ∀ pieces : List Piece, List.Forall₂ (Shows repr) pieces pieces :=
    fun pieces => forall₂_same.mpr fun piece _ => .same piece
  induction messages generalizing known with
  | nil => exact .nil
  | cons message rest ih =>
    rw [foldOrphans, flatMap_cons, flatMap_cons]
    refine rel_append ?_ (ih _)
    split
    · rename_i horphan
      rw [chatPieces, if_pos horphan.1]
      exact .cons (.folded _ _) .nil
    · exact hrefl _

/-! ### The messages of an input -/

/-- What a translation promises: no orphaned result, and every piece shown in its order. -/
structure Faithful (repr : Json → String) (pieces : List Piece) (messages : List ChatMessage) :
    Prop where
  preceded : Preceded [] messages
  ordered : List.Forall₂ (Shows repr) pieces (messages.flatMap (chatPieces repr))

/-- The pieces of an input: its instructions', then its items'. -/
def inputPieces (repr : Json → String) (provider : String) (minted : List (String × Fields))
    (items : List Json) (instructions : Json) : List Piece :=
  (systemMessage instructions).flatMap (chatPieces repr)
    ++ (resolveItemReferences repr minted items).flatMap (itemPieces repr provider)

theorem callsOnTurns_systemMessage (instructions : Json) :
    CallsOnTurns (systemMessage instructions) := by
  unfold systemMessage
  split
  · split
    · exact fun _ h => by cases h
    · exact .without rfl
  · exact fun _ h => by cases h

/-- **When no tool result is orphaned.**  The messages of an input list show its text, calls and
results in their order, and every tool message comes after its call, exactly when each result whose
id has the text of an earlier call's id has the id of an earlier call. -/
theorem messages_faithful_iff (repr : Json → String) (provider : String)
    (minted : List (String × Fields)) (items : List Json) (instructions : Json)
    (chat : List ChatMessage)
    (h : messages repr provider minted (.arr items) instructions = .ok chat) :
    Faithful repr (inputPieces repr provider minted items instructions) chat
      ↔ IdsApart repr [] (inputPieces repr provider minted items instructions) := by
  obtain ⟨raw, hraw, h⟩ := ok_of_bind h
  obtain ⟨added, hadded, h⟩ := ok_of_bind h
  obtain rfl := Except.ok.inj h
  have hitems : raw = items := by
    unfold orElse at hraw
    split at hraw
    · exact (Except.ok.inj hraw).symm
    · rename_i hempty
      rw [← Except.ok.inj hraw]
      exact (by simpa [truthy] using hempty : items = []).symm
  subst hitems
  obtain ⟨hturns, hpieces⟩ := foldlM_pieces (callsOnTurns_systemMessage instructions) hadded
  have hinput : inputPieces repr provider minted raw instructions
      = added.flatMap (chatPieces repr) := hpieces.symm
  have hempty : Carry [] [] := by simp [Carry]
  have hpreceded : Preceded [] (foldOrphans repr [] added)
      ↔ IdsApart repr [] (added.flatMap (chatPieces repr)) :=
    preceded_foldOrphans_iff hturns hempty
  rw [hinput, ← hpreceded]
  exact ⟨Faithful.preceded, fun hp => ⟨hp, shows_foldOrphans [] added⟩⟩

def answered : List Json :=
  [.obj [("type", .str "function_call"), ("call_id", .str "a"), ("name", .str "f")],
    .obj [("type", .str "function_call_output"), ("call_id", .str "a"), ("output", .str "x")]]

theorem messages_faithful_answered :
    Faithful (fun _ => "") (inputPieces (fun _ => "") "groq" [] answered .null)
        [{ role := .str "assistant", content := .null,
           toolCalls := [⟨.str "a", .str "f", .str "\x7b\x7d"⟩] },
         { role := .str "tool", content := .str "x", toolCallId := .str "a" }]
      ↔ IdsApart (fun _ => "") [] (inputPieces (fun _ => "") "groq" [] answered .null) :=
  messages_faithful_iff (fun _ => "") "groq" [] answered .null _ rfl

/-- A call of the id `"None"`, and a result without an id, whose text is that of the call's. -/
theorem result_orphaned : let chat : List ChatMessage :=
      [{ role := .str "assistant", content := .null,
         toolCalls := [⟨.str "None", .str "f", .str "\x7b\x7d"⟩] },
       { role := .str "tool", content := .str "x" }]
    messages (fun _ => "") "groq" []
        (.arr [.obj [("type", .str "function_call"), ("call_id", .str "None"), ("name", .str "f")],
          .obj [("type", .str "function_call_output"), ("output", .str "x")]]) .null = .ok chat
      ∧ ¬ Preceded [] chat := by
  refine ⟨rfl, fun h => ?_⟩
  obtain ⟨turn, hmem, -, call, hcall, hid⟩ := h.2.1 rfl
  obtain rfl := List.mem_singleton.mp hmem
  obtain rfl := List.mem_singleton.mp hcall
  cases hid

end

end Otari.Bridge.Input

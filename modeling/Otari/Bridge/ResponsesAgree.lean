import Otari.Bridge.ResponsesStream

/-!
# Bridge — ResponsesAgree — a streamed response against the whole one

A server may cut a completion into chunks in any way that keeps the reasoning before the text before
the tool calls (`Splits`).  Whatever the cut, the terminal response of the stream is the whole
response up to ids and times, exactly where the completion has no refusal, no call of a custom tool,
and no call without a name before one with a name (`stream_agrees_iff`).
-/

namespace Otari.Bridge
open StreamTranslator
open Option hiding map map_map
open List hiding next

/-! ### Cutting a completion into chunks -/

def ToolCall.name (call : ToolCall) : Text :=
  (call.function.map (·.name)).getD []

def ToolCall.arguments (call : ToolCall) : Text :=
  (call.function.bind (·.arguments)).getD []

def ChatCompletionChunk.delta (chunk : ChatCompletionChunk) : ChoiceDelta :=
  (chunk.choices.head?.map (·.delta)).getD {}

/-- The message of a completion, empty when it has no choice. -/
def ChatCompletion.message (completion : ChatCompletion) : CompletionMessage :=
  (completion.choices.head?.map (·.message)).getD {}

/-- A delta that begins a call. -/
structure ToolCallDelta.Begins (delta : ToolCallDelta) (call : ToolCall) (index : ℕ) : Prop where
  index : delta.index = index
  id : delta.id.getD [] = call.id
  name : delta.name = call.name

/-- A delta that goes on with a call, and may repeat its id and name. -/
structure ToolCallDelta.Continues (delta : ToolCallDelta) (call : ToolCall) (index : ℕ) : Prop where
  index : delta.index = index
  id : delta.id.getD [] = [] ∨ delta.id.getD [] = call.id
  name : delta.name = [] ∨ delta.name = call.name

/-- The deltas left to give the calls, after those heard of with their arguments so far: calls begin
in order, and any call that has begun may go on. -/
def Emits (calls : List ToolCall) (heard : List (ToolCall × Text)) : List ToolCallDelta → Prop
  | [] => heard = calls.map fun call => (call, call.arguments)
  | delta :: deltas =>
    (∃ call, delta.Begins call heard.length ∧
      Emits calls (heard ++ [(call, delta.fragment)]) deltas) ∨
    ∃ before call text after, heard = before ++ (call, text) :: after ∧
      delta.Continues call before.length ∧
      Emits calls (before ++ (call, text ++ delta.fragment) :: after) deltas

def Piece.rank : Piece → ℕ
  | .reasoning _ => 0
  | .text _ => 1
  | .call _ => 2

/-- **What a server may emit for a completion.** -/
structure Splits (completion : ChatCompletion) (chunks : List ChatCompletionChunk) : Prop where
  nonempty : chunks ≠ []
  model : ∀ chunk ∈ chunks, chunk.model = completion.model
  usage : (chunks.filterMap (·.usage)).getLast? = completion.usage
  finishReason : (chunks.filterMap fun chunk => chunk.choices.head?.bind (·.finishReason)).getLast? =
    completion.choices.head?.map (·.finishReason)
  order : (chunks.flatMap (·.pieces)).Pairwise fun a b => a.rank ≤ b.rank
  reasoning : chunks.flatMap (fun chunk => chunk.delta.reasoning.getD []) =
    completion.message.reasoning.getD []
  content : chunks.flatMap (fun chunk => chunk.delta.content.getD []) =
    completion.message.content.getD []
  refusal : chunks.flatMap (fun chunk => chunk.delta.refusal.getD []) =
    completion.message.refusal.getD []
  toolCalls : Emits completion.message.toolCalls [] (chunks.flatMap (·.delta.toolCalls))

/-! ### Up to ids and times -/

def Id.anonymous : Id → Id
  | .given text => .given text
  | .minted _ _ => .given []

def OutputItem.anonymous : OutputItem → OutputItem
  | .reasoning id content status => .reasoning id.anonymous content status
  | .message id content status => .message id.anonymous content status
  | .functionCall id callId name arguments status =>
    .functionCall id.anonymous callId.anonymous name arguments status

def Response.anonymous (response : Response) : Response :=
  { response with
    id := .given []
    createdAt := 0
    output := response.output.map OutputItem.anonymous }

def terminalResponse (events : List StreamEvent) : Option Response :=
  events.getLast?.bind fun event =>
    match event.payload with
    | .completed response | .incomplete response => some response
    | _ => none

/-- The completions whose streams agree. -/
structure Agreeable (message : CompletionMessage) : Prop where
  refusal : message.refusal.getD [] = []
  functions : ∀ call ∈ message.toolCalls, call.function.isSome = true
  named : message.toolCalls.Pairwise fun a b => a.name = [] → b.name = []

/-! ### The calls the translator has heard of -/

/-- The states of the calls, under the indexes from `n` on. -/
def numbered (n : ℕ) : List ToolCallState → List (ℤ × ToolCallState)
  | [] => []
  | state :: states => ((n : ℤ), state) :: numbered (n + 1) states

theorem numbered_append (n : ℕ) (states rest : List ToolCallState) :
    numbered n (states ++ rest) = numbered n states ++ numbered (n + states.length) rest := by
  induction states generalizing n with
  | nil => rfl
  | cons state states ih =>
    rw [cons_append, numbered, numbered, ih, length_cons, Nat.add_right_comm,
      Nat.add_assoc]
    rfl

theorem numbered_lt {n : ℕ} {states : List ToolCallState} {entry : ℤ × ToolCallState}
    (h : entry ∈ numbered n states) :
    (n : ℤ) ≤ entry.1 ∧ entry.1 < ((n + states.length : ℕ) : ℤ) := by
  induction states generalizing n with
  | nil => cases h
  | cons state states ih =>
    rcases mem_cons.mp h with rfl | hmem
    · simp only [length_cons]
      omega
    · have hrest := ih hmem
      simp only [length_cons]
      omega

theorem map_snd_numbered (n : ℕ) (states : List ToolCallState) :
    (numbered n states).map Prod.snd = states := by
  induction states generalizing n with
  | nil => rfl
  | cons state states ih => rw [numbered, map_cons, ih]

theorem lookup_numbered_none (states : List ToolCallState) :
    (numbered 0 states).lookup (states.length : ℤ) = none := by
  rw [lookup_eq_none_iff]
  intro entry hmem
  have hlt := (numbered_lt hmem).2
  rw [Nat.zero_add] at hlt
  simpa using hlt.ne'

theorem lookup_numbered (before : List ToolCallState) (state : ToolCallState)
    (after : List ToolCallState) :
    (numbered 0 (before ++ state :: after)).lookup (before.length : ℤ) = some state := by
  rw [lookup_eq_some_iff]
  refine ⟨numbered 0 before, numbered (0 + before.length + 1) after, ?_, fun entry hmem => ?_⟩
  · rw [numbered_append, numbered, Nat.zero_add]
  · have hlt := (numbered_lt hmem).2
    rw [Nat.zero_add] at hlt
    simpa using hlt.ne'

theorem put_numbered (before : List ToolCallState) (old state : ToolCallState)
    (after : List ToolCallState) : ((numbered 0 (before ++ old :: after)).map fun entry =>
      if entry.1 = (before.length : ℤ) then ((before.length : ℤ), state) else entry) =
      numbered 0 (before ++ state :: after) := by
  have hkeep : ∀ entries : List (ℤ × ToolCallState),
      (∀ entry ∈ entries, entry.1 ≠ (before.length : ℤ)) →
      (entries.map fun entry =>
        if entry.1 = (before.length : ℤ) then ((before.length : ℤ), state) else entry) =
          entries := by
    intro entries hne
    refine (map_congr_left fun entry hmem => ?_).trans (map_id entries)
    rw [if_neg (hne entry hmem)]
    rfl
  rw [numbered_append, numbered_append, numbered, numbered, map_append, map_cons,
    Nat.zero_add, if_pos rfl, hkeep _ fun entry hmem => ?_, hkeep _ fun entry hmem => ?_]
  · have hle := (numbered_lt hmem).1
    omega
  · have hlt := (numbered_lt hmem).2
    rw [Nat.zero_add] at hlt
    exact hlt.ne

/-- What is known of a call and its arguments so far is what its state holds. -/
structure Matches (heard : ToolCall × Text) (state : ToolCallState) : Prop where
  itemId : state.itemId.anonymous = .given []
  callId : state.callId.anonymous = .given heard.1.id
  name : state.name = heard.1.name
  arguments : state.arguments = heard.2

/-- The named calls have their items at the indexes from `n` on. -/
def Indexed (n : ℕ) : List ToolCallState → Prop
  | [] => True
  | state :: states =>
    (state.name = [] ∧ state.outputIndex = none ∧ Indexed n states) ∨
      state.name ≠ [] ∧ state.outputIndex = some n ∧ Indexed (n + 1) states

def openedCount (states : List ToolCallState) : ℕ :=
  states.countP fun state => state.name ≠ []

theorem indexed_append (n : ℕ) (states rest : List ToolCallState) :
    Indexed n (states ++ rest) ↔ Indexed n states ∧ Indexed (n + openedCount states) rest := by
  induction states generalizing n with
  | nil => simp [Indexed, openedCount]
  | cons state states ih =>
    rw [cons_append, Indexed, Indexed, ih, ih, openedCount, openedCount]
    by_cases hname : state.name = []
    · simp only [hname, ne_eq, not_true_eq_false, false_and, or_false, decide_false,
        countP_cons, Bool.false_eq_true, if_false, Nat.add_zero, true_and, and_assoc]
    · simp only [hname, ne_eq, not_false_eq_true, true_and, false_and, false_or, decide_true,
        countP_cons, if_true, and_assoc, Nat.add_assoc, Nat.add_comm 1]

/-! ### What the translator has said -/

def saidItems (reasoning text : Text) : List OutputItem :=
  (if reasoning ≠ [] then [reasoningItem (.given []) reasoning .completed] else []) ++
    if text ≠ [] then [messageItem (.given []) (some text) .completed] else []

/-- `said` are the reasoning and text items of the output, and `opened` those of the calls: the last
of the first may be open as long as there is none of the others. -/
inductive Said (reasoning text : Text) (tr : StreamTranslator) :
    List OutputItem → List OutputItem → Prop where
  | closed {said opened : List OutputItem} (hr : tr.reasoning = none) (ht : tr.text = none)
      (hsaid : said.map OutputItem.anonymous = saidItems reasoning text)
      (hquiet : (reasoning = [] ∧ text = []) ∨ opened ≠ []) : Said reasoning text tr said opened
  | reasoning {id : Id} {item : OutputItem} (hr : tr.reasoning = some (0, id))
      (ht : tr.text = none) (hid : id.anonymous = .given []) (hreasoning : reasoning ≠ [])
      (htext : text = []) : Said reasoning text tr [item] []
  | text {id : Id} {item : OutputItem} {said : List OutputItem} (hr : tr.reasoning = none)
      (ht : tr.text = some (said.length, id)) (hid : id.anonymous = .given [])
      (hsaid : said.map OutputItem.anonymous = saidItems reasoning []) (htext : text ≠ []) :
      Said reasoning text tr (said ++ [item]) []

/-- **Where the translator is** after a reasoning, a text and the calls heard of. -/
structure Holds (reasoning text : Text) (heard : List (ToolCall × Text)) (tr : StreamTranslator)
    (said opened : List OutputItem) (states : List ToolCallState) : Prop where
  reasoningText : tr.reasoningText = reasoning
  textValue : tr.textValue = text
  output : tr.output = said ++ opened
  phase : Said reasoning text tr said opened
  toolCalls : tr.toolCalls = numbered 0 states
  heard : List.Forall₂ Matches heard states
  indexed : Indexed said.length states
  opened : opened.length = openedCount states

variable {tr : StreamTranslator} {reasoning text : Text} {heard : List (ToolCall × Text)}
  {said opened : List OutputItem} {states : List ToolCallState}

theorem closeReasoning_idle (h : tr.reasoning = none) : tr.closeReasoning = ([], tr) := by
  rw [closeReasoning, h]

theorem closeText_idle (h : tr.text = none) : tr.closeText = ([], tr) := by
  rw [closeText, h]

variable {index : ℕ}

theorem closeReasoning_open {itemId : Id} (h : tr.reasoning = some (index, itemId)) :
    ∃ n, tr.closeReasoning.2 = { tr with
      reasoning := none
      sequence := n
      output := tr.output.set index (reasoningItem itemId tr.reasoningText .completed) } := by
  refine ⟨tr.sequence + 3, ?_⟩
  simp only [closeReasoning, h, events_snd]
  rfl

theorem closeText_open {itemId : Id} (h : tr.text = some (index, itemId)) :
    ∃ n, tr.closeText.2 = { tr with
      text := none
      sequence := n
      output := tr.output.set index (messageItem itemId (some tr.textValue) .completed) } := by
  refine ⟨tr.sequence + 3, ?_⟩
  simp only [closeText, h, events_snd]
  rfl

theorem openReasoning_idle (h : tr.reasoning = none) : ∃ n m item, tr.openReasoning.2 = { tr with
      sequence := n, minted := m, output := tr.output ++ [item],
      reasoning := some (tr.output.length, .minted .reasoning tr.minted) } := by
  refine ⟨tr.sequence + 2, tr.minted + 1,
    reasoningItem (.minted .reasoning tr.minted) [] .inProgress, ?_⟩
  simp only [openReasoning, h, newId, openItem, events_snd]
  rfl

theorem openReasoning_open (h : tr.reasoning.isSome = true) : tr.openReasoning = ([], tr) := by
  obtain ⟨entry, hopen⟩ := isSome_iff_exists.mp h
  rw [openReasoning, hopen]

theorem openText_idle (h : tr.text = none) : ∃ n m item, tr.openText.2 = { tr with
      sequence := n, minted := m, output := tr.output ++ [item],
      text := some (tr.output.length, .minted .msg tr.minted) } := by
  refine ⟨tr.sequence + 2, tr.minted + 1, messageItem (.minted .msg tr.minted) none .inProgress, ?_⟩
  simp only [openText, h, newId, openItem, events_snd]
  rfl

theorem openText_open (h : tr.text.isSome = true) : tr.openText = ([], tr) := by
  obtain ⟨entry, hopen⟩ := isSome_iff_exists.mp h
  rw [openText, hopen]

theorem Said.closeBoth (h : Said reasoning text tr said opened) (hout : tr.output = said ++ opened)
    (hr : tr.reasoningText = reasoning) (ht : tr.textValue = text) :
    ∃ said' n, (next tr.closeReasoning closeText).2 = { tr with
        reasoning := none, text := none, sequence := n, output := said' ++ opened } ∧
      said'.length = said.length ∧ said'.map OutputItem.anonymous = saidItems reasoning text := by
  cases h with
  | closed hr' ht' hsaid hquiet =>
    refine ⟨said, tr.sequence, ?_, rfl, hsaid⟩
    rw [next, closeReasoning_idle hr', closeText_idle ht', ← hout]
    cases tr
    simp_all
  | reasoning hr' ht' hid hreasoning htext =>
    rename_i id item
    obtain ⟨n, heq⟩ := closeReasoning_open hr'
    refine ⟨[reasoningItem id reasoning .completed], n, ?_, rfl, ?_⟩
    · rw [next, closeText_idle (by rw [heq]; exact ht'), heq, hout, hr, ← ht']
      rfl
    · simp [saidItems, hreasoning, htext, reasoningItem, OutputItem.anonymous, hid]
  | text hr' ht' hid hsaid htext =>
    rename_i id item said
    obtain ⟨n, heq⟩ := closeText_open ht'
    refine ⟨said ++ [messageItem id (some text) .completed], n, ?_, by simp, ?_⟩
    · rw [next, closeReasoning_idle hr', heq, hout, ht, ← hr']
      simp
    · rw [map_append, hsaid]
      simp [saidItems, htext, messageItem, OutputItem.anonymous, hid]

theorem Holds.quiet (h : Holds reasoning text [] tr said opened states) :
    opened = [] ∧ states = [] := by
  obtain rfl := forall₂_nil_left_iff.mp h.heard
  exact ⟨eq_nil_of_length_eq_zero h.opened, rfl⟩

theorem Holds.reasoningDelta (h : Holds reasoning [] [] tr said opened states) {delta : Text}
    (hreal : delta ≠ []) :
    ∃ said, Holds (reasoning ++ delta) [] [] (tr.reasoningDelta delta).2 said [] [] := by
  obtain ⟨rfl, rfl⟩ := h.quiet
  have hphase := h.phase
  have hout := h.output
  rw [append_nil] at hout
  cases hphase with
  | closed hr ht hsaid hquiet =>
    obtain ⟨rfl, -⟩ := hquiet.resolve_right (fun hne => hne rfl)
    obtain rfl : said = [] := map_eq_nil_iff.mp hsaid
    obtain ⟨n, m, item, heq⟩ := openReasoning_idle hr
    obtain ⟨n', heq'⟩ := appendReasoning_snd
      (show tr.openReasoning.2.reasoning.isSome = true by rw [heq]; rfl) delta
    refine ⟨[item], ?_⟩
    rw [StreamTranslator.reasoningDelta, next, heq', heq]
    exact {
      reasoningText := by rw [h.reasoningText]
      textValue := h.textValue
      output := by rw [hout]; rfl
      phase := .reasoning (by rw [hout]; rfl) ht rfl (by simpa using hreal) rfl
      toolCalls := h.toolCalls
      heard := .nil
      indexed := trivial
      opened := rfl }
  | reasoning hr ht hid hne htext =>
    rename_i id item
    obtain ⟨n', heq'⟩ := appendReasoning_snd
      (show tr.reasoning.isSome = true by rw [hr]; rfl) delta
    refine ⟨[item], ?_⟩
    rw [StreamTranslator.reasoningDelta, next, openReasoning_open (by rw [hr]; rfl), heq']
    exact {
      reasoningText := by rw [h.reasoningText]
      textValue := h.textValue
      output := h.output
      phase := .reasoning hr ht hid (by simp [hne]) rfl
      toolCalls := h.toolCalls
      heard := .nil
      indexed := trivial
      opened := rfl }
  | text hr ht hid hsaid htext => exact absurd rfl htext

theorem Holds.textDelta (h : Holds reasoning text [] tr said opened states) {delta : Text}
    (hreal : delta ≠ []) :
    ∃ said, Holds reasoning (text ++ delta) [] (tr.textDelta delta).2 said [] [] := by
  obtain ⟨rfl, rfl⟩ := h.quiet
  have hphase := h.phase
  have hout := h.output
  rw [append_nil] at hout
  -- the text is opened after what is said, which no reasoning is left open in
  have hopens : ∀ tr' : StreamTranslator, tr'.reasoning = none → tr'.text = none → text = [] →
      ∀ said, tr'.output = said → said.map OutputItem.anonymous = saidItems reasoning [] →
      tr'.reasoningText = reasoning → tr'.textValue = text → tr'.toolCalls = [] →
      ∃ said, Holds reasoning (text ++ delta) [] (next tr'.openText (appendText delta)).2
        said [] [] := by
    rintro tr' hr ht rfl said rfl hsaid hreasoning htext hcalls
    obtain ⟨n, m, item, heq⟩ := openText_idle ht
    obtain ⟨n', heq'⟩ := appendText_snd
      (show tr'.openText.2.text.isSome = true by rw [heq]; rfl) delta
    refine ⟨tr'.output ++ [item], ?_⟩
    rw [next, heq', heq]
    exact {
      reasoningText := hreasoning
      textValue := by rw [htext]
      output := (append_nil _).symm
      phase := .text hr rfl rfl hsaid (by simpa using hreal)
      toolCalls := hcalls
      heard := .nil
      indexed := trivial
      opened := rfl }
  cases hphase with
  | closed hr ht hsaid hquiet =>
    obtain ⟨rfl, rfl⟩ := hquiet.resolve_right (fun hne => hne rfl)
    obtain ⟨said, hholds⟩ := hopens tr hr ht rfl said hout hsaid h.reasoningText h.textValue
      h.toolCalls
    refine ⟨said, ?_⟩
    rwa [StreamTranslator.textDelta, next, next, closeReasoning_idle hr]
  | reasoning hr ht hid hne htext =>
    rename_i id item
    obtain ⟨n, heq⟩ := closeReasoning_open hr
    obtain ⟨said, hholds⟩ := hopens tr.closeReasoning.2 (by rw [heq]) (by rw [heq]; exact ht) htext
      [reasoningItem id reasoning .completed] (by rw [heq, hout, h.reasoningText]; rfl)
      (by simp [saidItems, hne, reasoningItem, OutputItem.anonymous, hid])
      (by rw [heq]; exact h.reasoningText) (by rw [heq]; exact h.textValue)
      (by rw [heq]; exact h.toolCalls)
    exact ⟨said, hholds⟩
  | text hr ht hid hsaid htext =>
    rename_i id item said
    obtain ⟨n', heq'⟩ := appendText_snd
      (show tr.text.isSome = true by rw [ht]; rfl) delta
    refine ⟨said ++ [item], ?_⟩
    rw [StreamTranslator.textDelta, next, next, closeReasoning_idle hr,
      openText_open (by rw [ht]; rfl), heq']
    exact {
      reasoningText := h.reasoningText
      textValue := by rw [h.textValue]
      output := h.output
      phase := .text hr ht hid hsaid (by simp [htext])
      toolCalls := h.toolCalls
      heard := .nil
      indexed := trivial
      opened := rfl }

variable {tr' : StreamTranslator}

theorem Said.same (h : Said reasoning text tr said opened)
    (hr : tr'.reasoning = tr.reasoning) (ht : tr'.text = tr.text) :
    Said reasoning text tr' said opened := by
  cases h with
  | closed hr' ht' hsaid hquiet => exact .closed (hr.trans hr') (ht.trans ht') hsaid hquiet
  | reasoning hr' ht' hid hne htext => exact .reasoning (hr.trans hr') (ht.trans ht') hid hne htext
  | text hr' ht' hid hsaid htext => exact .text (hr.trans hr') (ht.trans ht') hid hsaid htext

theorem nameCall_anonymous (tr : StreamTranslator) (state : ToolCallState) :
    (tr.nameCall state).1.callId.anonymous = state.callId.anonymous := by
  rw [nameCall]
  split
  · rename_i hempty
    rw [hempty]
    rfl
  · rfl

theorem openToolCall_eq (tr : StreamTranslator) (state : ToolCallState) :
    ∃ callId n m item, callId.anonymous = state.callId.anonymous ∧
      (tr.openToolCall state).1 = { state with
        callId := callId
        outputIndex := some (next tr.closeReasoning closeText).2.output.length } ∧
      (tr.openToolCall state).2.2 = { (next tr.closeReasoning closeText).2 with
        sequence := n
        minted := m
        output := (next tr.closeReasoning closeText).2.output ++ [item] } := by
  have hanon := nameCall_anonymous (next tr.closeReasoning closeText).2 state
  obtain ⟨callId, m, hname⟩ := nameCall_eq (next tr.closeReasoning closeText).2 state
  rw [hname] at hanon
  let item := OutputItem.functionCall state.itemId callId state.name [] .inProgress
  refine ⟨callId, (next tr.closeReasoning closeText).2.sequence + (openingEvents
    { state with callId := callId } (next tr.closeReasoning closeText).2.output.length item).length,
    m, item, hanon, ?_, ?_⟩
  · rw [openToolCall, addToolCall, hname]
    rfl
  · rw [openToolCall, addToolCall, hname]
    simp only [openItem, events_snd]
    rfl

variable {delta : ToolCallDelta} {call : ToolCall}

theorem Holds.begins (h : Holds reasoning text heard tr said opened states)
    (hbegins : delta.Begins call heard.length) :
    ∃ said opened states, Holds reasoning text (heard ++ [(call, delta.fragment)])
      (tr.toolCallDelta delta).2 said opened states := by
  have hindex : delta.index = (states.length : ℤ) := by
    rw [hbegins.index, h.heard.length_eq]
  have hlookup : tr.toolCalls.lookup delta.index = none := by
    rw [h.toolCalls, hindex, lookup_numbered_none]
  -- the state the delta makes, and where it is put
  generalize hstate : ToolCallState.extend { itemId := .minted .fc tr.minted } delta = state
  have hnone : state.outputIndex = none := by rw [← hstate]; rfl
  have hmatches : Matches (call, delta.fragment) state := by
    rw [← hstate]
    refine ⟨rfl, ?_, hbegins.name, nil_append _⟩
    rw [← hbegins.id]
    rfl
  have hput : ∀ tr' : StreamTranslator, ∀ state' : ToolCallState,
      tr'.toolCalls = tr.toolCalls ++ [(delta.index, { itemId := .minted .fc tr.minted })] →
      (tr'.putCall delta.index state').toolCalls = numbered 0 (states ++ [state']) := by
    intro tr' state' hcalls
    have hold := put_numbered states { itemId := .minted .fc tr.minted } state' []
    rw [numbered_append, numbered, numbered, Nat.zero_add, ← h.toolCalls] at hold
    rw [putCall, hcalls, hindex]
    exact hold
  rw [StreamTranslator.toolCallDelta, toolCallState]
  simp only [newId, hlookup, hstate, hnone]
  generalize htr : ({ tr with
    minted := tr.minted + 1
    toolCalls := tr.toolCalls ++ [(delta.index, { itemId := .minted .fc tr.minted })] } :
      StreamTranslator) = tr'
  have hphase : Said reasoning text tr' said opened := h.phase.same (by rw [← htr]) (by rw [← htr])
  have hcalls : tr'.toolCalls = tr.toolCalls ++ [(delta.index, { itemId := .minted .fc tr.minted })]
    := by rw [← htr]
  have hout : tr'.output = said ++ opened := by rw [← htr]; exact h.output
  have hreasoning : tr'.reasoningText = reasoning := by rw [← htr]; exact h.reasoningText
  have htext : tr'.textValue = text := by rw [← htr]; exact h.textValue
  split
  · rename_i hnamed
    obtain ⟨said', n, hclosed, hlength, hsaid⟩ := hphase.closeBoth hout hreasoning htext
    obtain ⟨callId, n', m, item, hanon, hfst, hsnd⟩ := openToolCall_eq tr' state
    rw [hclosed] at hfst hsnd
    refine ⟨said', opened ++ [item], states ++ [(tr'.openToolCall state).1], ?_⟩
    exact {
      reasoningText := by rw [putCall, hsnd, hreasoning]
      textValue := by rw [putCall, hsnd, htext]
      output := by rw [putCall, hsnd, append_assoc]
      phase := .closed (by rw [putCall, hsnd]) (by rw [putCall, hsnd]) hsaid (.inr (by simp))
      toolCalls := hput _ _ (by rw [hsnd, hcalls])
      heard := by
        refine rel_append h.heard (.cons ?_ .nil)
        rw [hfst]
        exact ⟨hmatches.itemId, hanon.trans hmatches.callId, hmatches.name, hmatches.arguments⟩
      indexed := by
        rw [hlength, indexed_append, hfst]
        refine ⟨h.indexed, .inr ⟨hnamed, ?_, trivial⟩⟩
        simp only [length_append, hlength, h.opened]
      opened := by
        rw [length_append, h.opened, openedCount, openedCount, countP_append, hfst]
        simp [hnamed] }
  · rename_i hunnamed
    rw [ne_eq, not_not] at hunnamed
    refine ⟨said, opened, states ++ [state], ?_⟩
    exact {
      reasoningText := hreasoning
      textValue := htext
      output := hout
      phase := hphase.same rfl rfl
      toolCalls := hput _ _ hcalls
      heard := rel_append h.heard (.cons hmatches .nil)
      indexed := (indexed_append _ _ _).mpr ⟨h.indexed, .inl ⟨hunnamed, hnone, trivial⟩⟩
      opened := by
        rw [h.opened, openedCount, openedCount, countP_append]
        simp [hunnamed] }

theorem forall₂_split {before after : List (ToolCall × Text)} {entry : ToolCall × Text}
    (h : List.Forall₂ Matches (before ++ entry :: after) states) :
    ∃ statesBefore state statesAfter, states = statesBefore ++ state :: statesAfter ∧
      List.Forall₂ Matches before statesBefore ∧ Matches entry state ∧
      List.Forall₂ Matches after statesAfter := by
  induction before generalizing states with
  | nil =>
    obtain ⟨state, statesAfter, hstate, hafter, rfl⟩ := forall₂_cons_left_iff.mp h
    exact ⟨[], state, statesAfter, rfl, .nil, hstate, hafter⟩
  | cons first before ih =>
    obtain ⟨state₀, rest, hstate₀, hrest, rfl⟩ := forall₂_cons_left_iff.mp h
    obtain ⟨statesBefore, state, statesAfter, rfl, hbefore, hstate, hafter⟩ := ih hrest
    exact ⟨state₀ :: statesBefore, state, statesAfter, rfl, .cons hstate₀ hbefore, hstate, hafter⟩

variable {state : ToolCallState}

theorem Matches.extend {sofar : Text} (h : Matches (call, sofar) state)
    (hcont : delta.Continues call index) :
    Matches (call, sofar ++ delta.fragment) (state.extend delta) ∧
      (state.extend delta).name = state.name := by
  have hname : (state.extend delta).name = state.name := by
    rw [ToolCallState.extend]
    dsimp only
    split
    · rename_i hempty
      rcases hcont.name with hnone | hsame
      · rw [hnone, hempty]
      · rw [hsame, ← h.name]
    · rfl
  refine ⟨⟨h.itemId, ?_, hname.trans h.name, ?_⟩, hname⟩
  · rw [ToolCallState.extend]
    dsimp only
    have hcallId := h.callId
    cases hid : state.callId with
    | minted stem n =>
      rw [hid] at hcallId
      exact hcallId
    | given text =>
      rw [hid] at hcallId
      cases text with
      | cons c text => exact hcallId
      | nil =>
        rcases hcont.id with hnone | hsame
        · rw [hnone]
          exact hcallId
        · rw [hsame]
          rfl
  · rw [ToolCallState.extend]
    dsimp only
    rw [h.arguments]

theorem Holds.continues {before after : List (ToolCall × Text)} {sofar : Text}
    (h : Holds reasoning text (before ++ (call, sofar) :: after) tr said opened states)
    (hcont : delta.Continues call before.length) :
    ∃ states, Holds reasoning text (before ++ (call, sofar ++ delta.fragment) :: after)
      (tr.toolCallDelta delta).2 said opened states := by
  obtain ⟨statesBefore, state, statesAfter, rfl, hbefore, hstate, hafter⟩ := forall₂_split h.heard
  have hindex : delta.index = (statesBefore.length : ℤ) := by
    rw [hcont.index, hbefore.length_eq]
  have hlookup : tr.toolCalls.lookup delta.index = some state := by
    rw [h.toolCalls, hindex, lookup_numbered]
  obtain ⟨hmatches, hname⟩ := hstate.extend hcont
  -- the call has its item or has no name, as before
  have hholds : ∀ tr' : StreamTranslator, tr'.toolCalls = tr.toolCalls → tr'.output = tr.output →
      tr'.reasoning = tr.reasoning → tr'.text = tr.text →
      tr'.reasoningText = tr.reasoningText → tr'.textValue = tr.textValue →
      Holds reasoning text (before ++ (call, sofar ++ delta.fragment) :: after)
        (tr'.putCall delta.index (state.extend delta)) said opened
        (statesBefore ++ state.extend delta :: statesAfter) := by
    intro tr' hcalls hout hr ht hrt htv
    have hindexed := h.indexed
    have hopened := h.opened
    rw [indexed_append, Indexed] at hindexed
    rw [openedCount, countP_append, countP_cons] at hopened
    exact {
      reasoningText := hrt.trans h.reasoningText
      textValue := htv.trans h.textValue
      output := hout.trans h.output
      phase := h.phase.same hr ht
      toolCalls := by
        rw [putCall, hcalls, h.toolCalls, hindex]
        exact put_numbered _ _ _ _
      heard := rel_append hbefore (.cons hmatches hafter)
      indexed := by
        rw [indexed_append, Indexed, hname]
        exact hindexed
      opened := by
        rw [openedCount, countP_append, countP_cons, hname]
        exact hopened }
  refine ⟨statesBefore ++ state.extend delta :: statesAfter, ?_⟩
  have hunchanged : (state.extend delta).outputIndex = state.outputIndex := rfl
  rw [StreamTranslator.toolCallDelta, toolCallState]
  simp only [newId, hlookup, hunchanged, hname]
  split
  · rename_i hnone
    have hempty : state.name = [] := by
      have hindexed := h.indexed
      rw [indexed_append, Indexed] at hindexed
      rcases hindexed.2 with ⟨hempty, -⟩ | ⟨-, hsome, -⟩
      · exact hempty
      · rw [hnone] at hsome
        cases hsome
    rw [if_neg (by simpa using hempty)]
    exact hholds _ rfl rfl rfl rfl rfl rfl
  · rw [events_snd]
    exact hholds { tr with sequence := _, minted := _ } rfl rfl rfl rfl rfl rfl

/-! ### From delta to delta -/

def Piece.reasoned : Piece → Text
  | .reasoning delta => delta
  | _ => []

def Piece.texted : Piece → Text
  | .text delta => delta
  | _ => []

def Piece.called : Piece → List ToolCallDelta
  | .call delta => [delta]
  | _ => []

/-- What is still to come, after a reasoning, a text and the calls heard of, for a whole reasoning, a
whole text and all the calls. -/
structure Due (wholeReasoning wholeText : Text) (calls : List ToolCall) (reasoning text : Text)
    (heard : List (ToolCall × Text)) (pieces : List Piece) : Prop where
  order : pieces.Pairwise fun a b => a.rank ≤ b.rank
  afterText : text ≠ [] → ∀ piece ∈ pieces, 1 ≤ piece.rank
  afterCalls : heard ≠ [] → ∀ piece ∈ pieces, 2 ≤ piece.rank
  real : ∀ piece ∈ pieces, piece.Real
  reasoning : reasoning ++ pieces.flatMap (·.reasoned) = wholeReasoning
  text : text ++ pieces.flatMap (·.texted) = wholeText
  calls : Emits calls heard (pieces.flatMap (·.called))

/-- The translator is where the pieces still to come are all that is missing. -/
def Lacks (wholeReasoning wholeText : Text) (calls : List ToolCall) (pieces : List Piece)
    (tr : StreamTranslator) : Prop :=
  ∃ reasoning text heard said opened states, Holds reasoning text heard tr said opened states ∧
    Due wholeReasoning wholeText calls reasoning text heard pieces

variable {wholeReasoning wholeText : Text} {calls : List ToolCall}

variable {pieces : List Piece}

theorem Lacks.take {piece : Piece} (h : Lacks wholeReasoning wholeText calls (piece :: pieces) tr) :
    Lacks wholeReasoning wholeText calls pieces (tr.take piece).2 := by
  obtain ⟨reasoning, text, heard, said, opened, states, hholds, hdue⟩ := h
  obtain ⟨hfirst, horder⟩ := pairwise_cons.mp hdue.order
  have hreal := hdue.real piece mem_cons_self
  have hreal' := fun rest hmem => hdue.real rest (mem_cons_of_mem piece hmem)
  have hreasoning := hdue.reasoning
  have htext := hdue.text
  have hcalls := hdue.calls
  rw [flatMap_cons] at hreasoning htext hcalls
  cases piece with
  | reasoning delta =>
    obtain rfl : heard = [] := by
      by_contra hne
      exact absurd (hdue.afterCalls hne _ mem_cons_self) (by simp [Piece.rank])
    obtain rfl : text = [] := by
      by_contra hne
      exact absurd (hdue.afterText hne _ mem_cons_self) (by simp [Piece.rank])
    obtain ⟨said', hholds'⟩ := hholds.reasoningDelta hreal
    rw [Piece.reasoned, ← append_assoc] at hreasoning
    exact ⟨_, _, _, _, _, _, hholds', horder, fun hne => absurd rfl hne, fun hne => absurd rfl hne,
      hreal', hreasoning, htext, hcalls⟩
  | text delta =>
    obtain rfl : heard = [] := by
      by_contra hne
      exact absurd (hdue.afterCalls hne _ mem_cons_self) (by simp [Piece.rank])
    obtain ⟨said', hholds'⟩ := hholds.textDelta hreal
    rw [Piece.texted, ← append_assoc] at htext
    exact ⟨_, _, _, _, _, _, hholds', horder, fun _ => hfirst, fun hne => absurd rfl hne, hreal',
      hreasoning, htext, hcalls⟩
  | call delta =>
    rcases hcalls with ⟨call, hbegins, hemits⟩ | ⟨before, call, sofar, after, rfl, hcont, hemits⟩
    · obtain ⟨said', opened', states', hholds'⟩ := hholds.begins hbegins
      exact ⟨_, _, _, _, _, _, hholds', horder,
        fun _ rest hmem => le_trans (by simp [Piece.rank]) (hfirst rest hmem), fun _ => hfirst, hreal',
        hreasoning, htext, hemits⟩
    · obtain ⟨states', hholds'⟩ := hholds.continues hcont
      exact ⟨_, _, _, _, _, _, hholds', horder,
        fun _ rest hmem => le_trans (by simp [Piece.rank]) (hfirst rest hmem), fun _ => hfirst, hreal',
        hreasoning, htext, hemits⟩

theorem Lacks.takeAll {rest : List Piece}
    (h : Lacks wholeReasoning wholeText calls (pieces ++ rest) tr) :
    Lacks wholeReasoning wholeText calls rest (tr.takeAll pieces).2 := by
  induction pieces generalizing tr with
  | nil => exact h
  | cons piece pieces ih => exact ih h.take

theorem Lacks.same (h : Lacks wholeReasoning wholeText calls pieces tr)
    (hv : SameView tr tr') (hcalls : tr'.toolCalls = tr.toolCalls) :
    Lacks wholeReasoning wholeText calls pieces tr' := by
  obtain ⟨reasoning, text, heard, said, opened, states, hholds, hdue⟩ := h
  exact ⟨reasoning, text, heard, said, opened, states,
    { reasoningText := hv.reasoningText.trans hholds.reasoningText
      textValue := hv.textValue.trans hholds.textValue
      output := hv.output.trans hholds.output
      phase := hholds.phase.same hv.reasoning hv.text
      toolCalls := hcalls.trans hholds.toolCalls
      heard := hholds.heard
      indexed := hholds.indexed
      opened := hholds.opened }, hdue⟩

variable {chunks : List ChatCompletionChunk}

/-- **Nothing is missing after the last chunk.** -/
theorem Lacks.feedAll (h : Lacks wholeReasoning wholeText calls (chunks.flatMap (·.pieces)) tr) :
    Lacks wholeReasoning wholeText calls [] (tr.feedAll chunks).2 := by
  induction chunks generalizing tr with
  | nil => exact h
  | cons chunk chunks ih =>
    rw [flatMap_cons] at h
    have hfed := (h.same (heard_view tr chunk) rfl).takeAll
    refine ih ?_
    rw [feed_eq]
    exact hfed.same (finishReason_view _ _) rfl

/-! ### What the terminal response takes from the chunks -/

/-- The translator but for its items. -/
structure SameTerms (tr tr' : StreamTranslator) : Prop where
  echo : tr'.echo = tr.echo
  responseId : tr'.responseId = tr.responseId
  createdAt : tr'.createdAt = tr.createdAt
  model : tr'.model = tr.model
  finishReason : tr'.finishReason = tr.finishReason
  usage : tr'.usage = tr.usage

theorem SameTerms.trans {tr tr'' : StreamTranslator} (h : SameTerms tr tr')
    (h' : SameTerms tr' tr'') : SameTerms tr tr'' where
  echo := h'.echo.trans h.echo
  responseId := h'.responseId.trans h.responseId
  createdAt := h'.createdAt.trans h.createdAt
  model := h'.model.trans h.model
  finishReason := h'.finishReason.trans h.finishReason
  usage := h'.usage.trans h.usage

theorem openToolCall_terms (tr : StreamTranslator) (state : ToolCallState) :
    SameTerms tr (tr.openToolCall state).2.2 := by
  obtain ⟨n, m, output, heq⟩ := openToolCall_snd tr state
  rw [heq]
  exact ⟨rfl, rfl, rfl, rfl, rfl, rfl⟩

theorem toolCallState_terms (tr : StreamTranslator) (index : ℤ) :
    SameTerms tr (tr.toolCallState index).2 := by
  rw [toolCallState]
  dsimp only [newId]
  split <;> exact ⟨rfl, rfl, rfl, rfl, rfl, rfl⟩

theorem toolCallDelta_terms (tr : StreamTranslator) (delta : ToolCallDelta) :
    SameTerms tr (tr.toolCallDelta delta).2 := by
  refine (toolCallState_terms tr delta.index).trans ?_
  rw [StreamTranslator.toolCallDelta]
  dsimp only
  split
  · split
    · exact (openToolCall_terms _ _).trans ⟨rfl, rfl, rfl, rfl, rfl, rfl⟩
    · exact ⟨rfl, rfl, rfl, rfl, rfl, rfl⟩
  · rw [events_snd]
    exact ⟨rfl, rfl, rfl, rfl, rfl, rfl⟩

theorem take_terms (tr : StreamTranslator) (piece : Piece) : SameTerms tr (tr.take piece).2 := by
  cases piece with
  | reasoning delta =>
    obtain ⟨n, m, output, open_, -, heq⟩ := reasoningDelta_snd tr delta
    rw [StreamTranslator.take, heq]
    exact ⟨rfl, rfl, rfl, rfl, rfl, rfl⟩
  | text delta =>
    obtain ⟨n, m, output, open_, -, heq⟩ := textDelta_snd tr delta
    rw [StreamTranslator.take, heq]
    exact ⟨rfl, rfl, rfl, rfl, rfl, rfl⟩
  | call delta => exact toolCallDelta_terms tr delta

theorem takeAll_terms (tr : StreamTranslator) (pieces : List Piece) :
    SameTerms tr (tr.takeAll pieces).2 := by
  induction pieces generalizing tr with
  | nil => exact ⟨rfl, rfl, rfl, rfl, rfl, rfl⟩
  | cons piece pieces ih => exact (take_terms tr piece).trans (ih _)

theorem finishCall_terms (tr : StreamTranslator) (state : ToolCallState) :
    SameTerms tr (tr.finishCall state).2 := by
  have hclose : ∀ tr' state', SameTerms tr' (tr'.closeToolCall state').2 := by
    intro tr' state'
    rw [closeToolCall]
    split
    · exact ⟨rfl, rfl, rfl, rfl, rfl, rfl⟩
    · rw [events_snd]
      exact ⟨rfl, rfl, rfl, rfl, rfl, rfl⟩
  rw [finishCall, openedCall]
  cases state.outputIndex with
  | some index => exact hclose _ _
  | none => exact (openToolCall_terms tr state).trans (hclose _ _)

theorem finishCalls_terms (tr : StreamTranslator) (states : List ToolCallState) :
    SameTerms tr (tr.finishCalls states).2 := by
  induction states generalizing tr with
  | nil => exact ⟨rfl, rfl, rfl, rfl, rfl, rfl⟩
  | cons state states ih => exact (finishCall_terms tr state).trans (ih _)

/-- The terms after the chunks: the model they agree on, and the last finish reason and usage
given. -/
theorem feedAll_terms {model : Text} (chunks : List ChatCompletionChunk)
    (hmodel : ∀ chunk ∈ chunks, chunk.model = model) (tr : StreamTranslator)
    (htr : tr.model = some model ∨ tr.model = none ∧ chunks ≠ []) : SameTerms { tr with
      model := some model
      finishReason := ((chunks.filterMap fun chunk =>
        chunk.choices.head?.bind (·.finishReason)).getLast?).or tr.finishReason
      usage := ((chunks.filterMap (·.usage)).getLast?).or tr.usage } (tr.feedAll chunks).2 := by
  induction chunks generalizing tr with
  | nil =>
    rcases htr with hsome | ⟨-, hne⟩
    · exact ⟨rfl, rfl, rfl, hsome, rfl, rfl⟩
    · exact absurd rfl hne
  | cons chunk chunks ih =>
    have hhead : (truthy tr.model).or (some chunk.model) = some model := by
      rw [hmodel chunk mem_cons_self]
      rcases htr with hsome | ⟨hnone, -⟩
      · rw [hsome, truthy, filter_some]
        split <;> rfl
      · rw [hnone]
        rfl
    have htaken := takeAll_terms (tr.heard chunk) chunk.pieces
    rw [feedAll, next]
    refine SameTerms.trans ?_ (ih (fun rest hmem => hmodel rest (mem_cons_of_mem _ hmem)) _
      (.inl ?_))
    · rw [feed_eq]
      refine ⟨htaken.echo, htaken.responseId, htaken.createdAt, rfl, ?_, ?_⟩
      · dsimp only
        rw [htaken.finishReason, filterMap_cons]
        cases chunk.choices.head?.bind (·.finishReason) with
        | none => rfl
        | some reason =>
          dsimp only
          rw [List.getLast?_cons]
          cases (chunks.filterMap _).getLast? <;> rfl
      · dsimp only
        rw [htaken.usage, filterMap_cons]
        rw [StreamTranslator.heard]
        cases chunk.usage with
        | none => rfl
        | some usage =>
          dsimp only
          rw [List.getLast?_cons]
          cases (chunks.filterMap _).getLast? <;> rfl
    · rw [feed_eq]
      exact htaken.model.trans hhead

/-! ### The end of the output -/

def callItem (call : ToolCall) : OutputItem :=
  .functionCall (.given []) (.given call.id) call.name call.arguments .completed

theorem Matches.item
    (h : Matches (call, call.arguments) state) : state.item.anonymous = callItem call := by
  rw [ToolCallState.item, OutputItem.anonymous, h.itemId, h.callId, h.name, h.arguments, callItem]

def ToolCall.named (call : ToolCall) : Bool := call.name ≠ []

def ToolCallState.named (state : ToolCallState) : Bool := state.name ≠ []

theorem closeToolCall_snd (tr : StreamTranslator)
    (h : state.outputIndex = some index) : ∃ n, (tr.closeToolCall state).2 =
      { tr with sequence := n, output := tr.output.set index state.item } := by
  refine ⟨tr.sequence + 2, ?_⟩
  simp only [closeToolCall, h, events_snd]
  rfl

/-- The loop puts the items of the open calls in their places and those of the others after them. -/
theorem finishCalls_output {earlier own later : List OutputItem} (hr : tr.reasoning = none)
    (ht : tr.text = none) (hout : tr.output = earlier ++ (own ++ later))
    (hindexed : Indexed earlier.length states) (hown : own.length = openedCount states) :
    ∃ named unnamed, (tr.finishCalls states).2.output = earlier ++ (named ++ (later ++ unnamed)) ∧
      named.map OutputItem.anonymous = (states.filter (·.named)).map (·.item.anonymous) ∧
      unnamed.map OutputItem.anonymous = (states.filter (!·.named)).map (·.item.anonymous) := by
  induction states generalizing tr earlier own later with
  | nil =>
    obtain rfl := eq_nil_of_length_eq_zero hown
    exact ⟨[], [], by simpa [finishCalls] using hout, rfl, rfl⟩
  | cons state states ih =>
    rw [openedCount, countP_cons] at hown
    rcases hindexed with ⟨hempty, hnone, hrest⟩ | ⟨hname, hsome, hrest⟩
    · -- the call is opened now, at the end of the output
      have hnamed : state.named = false := by simp [ToolCallState.named, hempty]
      obtain ⟨callId, n, m, item, hanon, hfst, hsnd⟩ := openToolCall_eq tr state
      rw [next, closeReasoning_idle hr, closeText_idle ht] at hfst hsnd
      obtain ⟨n', hclosed⟩ := closeToolCall_snd (tr.openToolCall state).2.2
        (show (tr.openToolCall state).1.outputIndex = some _ by rw [hfst])
      have hfinished : (tr.finishCall state).2 = ((tr.openToolCall state).2.2.closeToolCall
          (tr.openToolCall state).1).2 := by
        simp only [finishCall, openedCall, hnone, next]
      have hafter : (tr.finishCall state).2.output =
          earlier ++ (own ++ (later ++ [(tr.openToolCall state).1.item])) := by
        rw [hfinished, hclosed, hsnd]
        simp [hout, set_append_right]
      have hr' : (tr.finishCall state).2.reasoning = none := by
        rw [hfinished, hclosed, hsnd]
        exact hr
      have ht' : (tr.finishCall state).2.text = none := by
        rw [hfinished, hclosed, hsnd]
        exact ht
      obtain ⟨named, unnamed, houtput, hnameds, hunnameds⟩ := ih hr' ht' hafter hrest (by simpa [openedCount, hempty] using hown)
      refine ⟨named, (tr.openToolCall state).1.item :: unnamed, ?_, ?_, ?_⟩
      · rw [finishCalls, next, houtput]
        simp
      · rw [hnameds, filter_cons, hnamed]
        rfl
      · rw [map_cons, hunnameds, filter_cons, hnamed, hfst]
        simp [ToolCallState.item, OutputItem.anonymous, hanon]
    · have hnamed : state.named = true := by simp [ToolCallState.named, hname]
      obtain ⟨first, own, rfl⟩ : ∃ first rest, own = first :: rest := by
        refine exists_cons_of_length_pos ?_
        rw [hown]
        simp [hname]
      obtain ⟨n, hclosed⟩ := closeToolCall_snd tr hsome
      have hfinished : (tr.finishCall state).2 = (tr.closeToolCall state).2 := by
        simp only [finishCall, openedCall, hsome, next]
      have hafter : (tr.finishCall state).2.output =
          (earlier ++ [state.item]) ++ (own ++ later) := by
        rw [hfinished, hclosed]
        simp [hout, set_append_right]
      have hr' : (tr.finishCall state).2.reasoning = none := by
        rw [hfinished, hclosed]
        exact hr
      have ht' : (tr.finishCall state).2.text = none := by
        rw [hfinished, hclosed]
        exact ht
      obtain ⟨named, unnamed, houtput, hnameds, hunnameds⟩ := ih hr' ht' hafter (by simpa using hrest) (by simpa [openedCount, hname] using hown)
      refine ⟨state.item :: named, unnamed, ?_, ?_, ?_⟩
      · rw [finishCalls, next, houtput]
        simp
      · rw [map_cons, hnameds, filter_cons, hnamed]
        rfl
      · rw [hunnameds, filter_cons, hnamed]
        rfl

theorem forall₂_items {p : Bool} (h : List.Forall₂ Matches
    (calls.map fun call => (call, call.arguments)) states) :
    (states.filter (·.named == p)).map (·.item.anonymous) =
      (calls.filter (·.named == p)).map callItem := by
  induction calls generalizing states with
  | nil =>
    cases h
    rfl
  | cons call calls ih =>
    obtain ⟨state, rest, hstate, hrest, rfl⟩ := forall₂_cons_left_iff.mp h
    have hnamed : state.named = call.named := by
      rw [ToolCallState.named, hstate.name, ToolCall.named]
    rw [filter_cons, filter_cons, hnamed]
    split
    · rw [map_cons, map_cons, hstate.item, ih hrest]
    · exact ih hrest

def namedFirst (calls : List ToolCall) : List ToolCall :=
  calls.filter (·.named == true) ++ calls.filter (·.named == false)

def closing (tr : StreamTranslator) : StreamTranslator :=
  let closed := (next tr.closeReasoning closeText).2
  (closed.finishCalls (closed.toolCalls.map Prod.snd)).2

theorem Lacks.closing (h : Lacks wholeReasoning wholeText calls [] tr) :
    (closing tr).output.map OutputItem.anonymous = saidItems wholeReasoning wholeText ++
      (namedFirst calls).map callItem := by
  obtain ⟨reasoning, text, heard, said, opened, states, hholds, hdue⟩ := h
  have hreasoning := hdue.reasoning
  have htext := hdue.text
  have hheard : heard = calls.map fun call => (call, call.arguments) := hdue.calls
  rw [flatMap_nil, append_nil] at hreasoning htext
  subst hreasoning htext hheard
  obtain ⟨said', n, hclosed, hlength, hsaid⟩ := hholds.phase.closeBoth hholds.output
    hholds.reasoningText hholds.textValue
  have hindexed := hholds.indexed
  rw [← hlength] at hindexed
  obtain ⟨named, unnamed, houtput, hnamed, hunnamed⟩ := finishCalls_output
    (show (next tr.closeReasoning closeText).2.reasoning = none by rw [hclosed])
    (show (next tr.closeReasoning closeText).2.text = none by rw [hclosed])
    (show (next tr.closeReasoning closeText).2.output = said' ++ (opened ++ []) by
      rw [hclosed, append_nil]) hindexed hholds.opened
  have hstates : (next tr.closeReasoning closeText).2.toolCalls.map Prod.snd = states := by
    rw [hclosed, hholds.toolCalls, map_snd_numbered]
  rw [Bridge.closing, hstates, houtput, nil_append, map_append, map_append, hsaid,
    hnamed, hunnamed, namedFirst, map_append]
  have hitems := fun p => forall₂_items (p := p) hholds.heard
  have htrue := hitems true
  have hfalse := hitems false
  simp only [beq_true, beq_false] at htrue hfalse ⊢
  rw [htrue, hfalse]

theorem closing_terms (tr : StreamTranslator) : SameTerms tr (closing tr) := by
  obtain ⟨n, output, hclosed⟩ := closeBoth_snd tr
  refine SameTerms.trans ?_ (finishCalls_terms _ _)
  rw [hclosed]
  exact ⟨rfl, rfl, rfl, rfl, rfl, rfl⟩

theorem terminalResponse_append (events : List StreamEvent) (n : ℕ) (response : Response) :
    terminalResponse (events ++ [⟨n, if response.status = .incomplete then .incomplete response
      else .completed response⟩]) = some response := by
  rw [terminalResponse, List.getLast?_concat, bind_some]
  by_cases hstatus : response.status = .incomplete
  · rw [if_pos hstatus]
  · rw [if_neg hstatus]

theorem terminalResponse_streamEvents (echo : ResponseEcho) (now : ℚ)
    (chunks : List ChatCompletionChunk) : terminalResponse (streamEvents echo now chunks) =
      some ((closing ((StreamTranslator.start { echo := echo, createdAt := now }).2.feedAll
        chunks).2).snapshot .completed) := by
  simp only [streamEvents, finish, next, ← append_assoc]
  exact terminalResponse_append _ _ _

/-! ### The whole response -/

def functionItems (calls : List ToolCall) : List OutputItem :=
  (calls.filter (·.function.isSome)).map callItem

def messageItems (message : CompletionMessage) : List OutputItem :=
  if (truthy message.content).isSome ∨ (truthy message.refusal).isSome then
    [messageItem (.given []) (truthy message.content) .completed message.refusal]
  else []

theorem truthy_eq (text : Option Text) :
    truthy text = if text.getD [] ≠ [] then some (text.getD []) else none := by
  cases text with
  | none => rfl
  | some text =>
    rw [truthy, filter_some, getD_some]
    simp

theorem functionItems_zipIdx (calls : List ToolCall) (n m : ℕ) :
    (((calls.filterMap fun call => call.function.map fun function => (call.id, function)).zipIdx
      m).map fun ((id, function), i) => OutputItem.functionCall (.minted .fc (n + i)) (.given id)
        function.name (function.arguments.getD []) .completed).map OutputItem.anonymous =
      functionItems calls := by
  induction calls generalizing m with
  | nil => rfl
  | cons call calls ih =>
    have hrest := ih (m + 1)
    rw [functionItems, filterMap_cons, filter_cons]
    cases hfunction : call.function with
    | none => exact ih m
    | some function =>
      rw [functionItems] at hrest
      simp only [map_some, zipIdx_cons, map_cons, hrest, isSome_some,
        if_true, callItem, ToolCall.name, ToolCall.arguments, hfunction, getD_some,
        bind_some]
      rfl

theorem messageOutput_anonymous (message : CompletionMessage) (n : ℕ) :
    (messageOutput message n).map OutputItem.anonymous = saidItems (message.reasoning.getD []) [] ++
        (messageItems message ++ functionItems message.toolCalls) := by
  have hcalls := functionItems_zipIdx message.toolCalls (n + 2) 0
  rw [messageOutput, map_append, map_append, hcalls, append_assoc]
  congr 1
  · rw [truthy_eq, saidItems]
    split <;> rfl
  · rw [messageItems]
    split <;> rfl

/-! ### Where the two agree -/

theorem namedFirst_length (calls : List ToolCall) : (namedFirst calls).length = calls.length := by
  have hsplit := length_eq_length_filter_add (l := calls) (·.named == true)
  have hnot : (fun call : ToolCall => !(call.named == true)) = fun call => call.named == false := by
    funext call
    cases call.named <;> rfl
  rw [hnot] at hsplit
  rw [namedFirst, length_append, ← hsplit]

theorem namedFirst_pairwise (calls : List ToolCall) :
    (namedFirst calls).Pairwise fun a b => a.name = [] → b.name = [] := by
  have hnamed : ∀ call ∈ calls.filter (·.named == true), call.name ≠ [] := by
    intro call hmem
    simpa [ToolCall.named] using (mem_filter.mp hmem).2
  have hunnamed : ∀ call ∈ calls.filter (·.named == false), call.name = [] := by
    intro call hmem
    simpa [ToolCall.named] using (mem_filter.mp hmem).2
  rw [namedFirst, pairwise_append]
  exact ⟨pairwise_of_forall_mem_list fun a ha b _ hempty => absurd hempty (hnamed a ha),
    pairwise_of_forall_mem_list fun a _ b hb _ => hunnamed b hb,
    fun a ha b _ hempty => absurd hempty (hnamed a ha)⟩

theorem namedFirst_eq {calls : List ToolCall}
    (h : calls.Pairwise fun a b => a.name = [] → b.name = []) : namedFirst calls = calls := by
  induction calls with
  | nil => rfl
  | cons call calls ih =>
    obtain ⟨hfirst, hrest⟩ := pairwise_cons.mp h
    have htail := ih hrest
    rw [namedFirst] at htail ⊢
    by_cases hname : call.name = []
    · -- nothing after it has a name
      have hnamed : calls.filter (·.named == true) = [] := by
        rw [filter_eq_nil_iff]
        intro rest hmem
        simp [ToolCall.named, hfirst rest hmem hname]
      rw [hnamed, nil_append] at htail
      rw [filter_cons, filter_cons, hnamed, htail]
      simp [ToolCall.named, hname]
    · rw [filter_cons, filter_cons]
      simpa [ToolCall.named, hname] using htail

theorem namedFirst_iff (calls : List ToolCall) :
    (namedFirst calls).map callItem = functionItems calls ↔
      (∀ call ∈ calls, call.function.isSome = true) ∧
        calls.Pairwise fun a b => a.name = [] → b.name = [] := by
  constructor
  · intro heq
    have hall : ∀ call ∈ calls, call.function.isSome = true := by
      have hlength := congrArg List.length heq
      rw [functionItems, length_map, length_map, namedFirst_length] at hlength
      exact length_filter_eq_length_iff.mp hlength.symm
    refine ⟨hall, ?_⟩
    rw [functionItems, filter_eq_self.mpr hall] at heq
    have hnames : (namedFirst calls).map (·.name) = calls.map (·.name) := by
      have hitems := congrArg (List.map fun item : OutputItem =>
        match item with
        | .functionCall _ _ name _ _ => name
        | _ => []) heq
      rwa [map_map, map_map] at hitems
    have hpair := namedFirst_pairwise calls
    have hmap : ∀ calls : List ToolCall,
        (calls.map (·.name)).Pairwise (fun a b => a = [] → b = []) ↔
          calls.Pairwise fun a b => a.name = [] → b.name = [] := fun _ => pairwise_map
    rw [← hmap] at hpair ⊢
    rwa [← hnames]
  · rintro ⟨hall, hpair⟩
    rw [namedFirst_eq hpair, functionItems, filter_eq_self.mpr hall]

theorem messageItems_refusal {message : CompletionMessage} (h : message.refusal.getD [] ≠ [])
    (text : Text) (calls : List ToolCall) (items : List OutputItem) :
    (if text ≠ [] then [messageItem (.given []) (some text) .completed] else []) ++
      calls.map callItem ≠ messageItems message ++ items := by
  have hrefusal : truthy message.refusal = some (message.refusal.getD []) := by
    rw [truthy_eq, if_pos h]
  have hsome : (truthy message.content).isSome ∨ (truthy message.refusal).isSome := by
    rw [hrefusal]
    exact .inr rfl
  rw [messageItems, if_pos hsome]
  intro heq
  split at heq
  · have hhead := (List.cons.inj heq).1
    simp only [messageItem, hrefusal, OutputItem.message.injEq] at hhead
    have hparts := congrArg List.getLast? hhead.2.1
    simp [truthy] at hparts
  · cases calls with
    | nil => cases heq
    | cons call calls =>
      have hhead := (List.cons.inj heq).1
      rw [callItem, messageItem] at hhead
      cases hhead

theorem messageItems_text {message : CompletionMessage} (h : message.refusal.getD [] = []) :
    messageItems message = if message.content.getD [] ≠ [] then
      [messageItem (.given []) (some (message.content.getD [])) .completed] else [] := by
  have hrefusal : truthy message.refusal = none := by
    rw [truthy_eq, if_neg (not_not.mpr h)]
  rw [messageItems, messageItem, hrefusal, truthy_eq]
  by_cases hcontent : message.content.getD [] = []
  · simp [hcontent]
  · simp [hcontent, messageItem, truthy]

theorem flatMap_pieces {α : Type} (f : Piece → List α) (chunk : ChatCompletionChunk) :
    chunk.pieces.flatMap f =
      (if chunk.delta.reasoning.getD [] ≠ [] then f (.reasoning (chunk.delta.reasoning.getD []))
        else []) ++
      (if chunk.delta.content.getD [] ++ chunk.delta.refusal.getD [] ≠ [] then
        f (.text (chunk.delta.content.getD [] ++ chunk.delta.refusal.getD [])) else []) ++
      chunk.delta.toolCalls.flatMap fun call => f (.call call) := by
  rw [ChatCompletionChunk.pieces]
  cases hchoices : chunk.choices with
  | nil =>
    have hdelta : chunk.delta = {} := by
      rw [ChatCompletionChunk.delta, hchoices]
      rfl
    rw [hdelta]
    rfl
  | cons choice rest =>
    have hdelta : chunk.delta = choice.delta := by
      rw [ChatCompletionChunk.delta, hchoices]
      rfl
    simp only [hdelta, flatMap_append, flatMap_map, truthy_eq]
    congr 2
    · by_cases hreasoning : choice.delta.reasoning.getD [] = []
      · simp [hreasoning]
      · simp [hreasoning]
    · by_cases htext : choice.delta.content.getD [] ++ choice.delta.refusal.getD [] = []
      · rw [if_neg (not_not.mpr htext), if_neg (not_not.mpr htext)]
        rfl
      · rw [if_pos htext, if_pos htext]
        exact append_nil _

theorem pieces_texted (chunk : ChatCompletionChunk) : chunk.pieces.flatMap (·.texted) =
    chunk.delta.content.getD [] ++ chunk.delta.refusal.getD [] := by
  have hcalls : chunk.delta.toolCalls.flatMap (fun call => (Piece.call call).texted) = [] :=
    flatMap_eq_nil_iff.mpr fun _ _ => rfl
  rw [flatMap_pieces, hcalls, append_nil]
  simp only [Piece.texted, ite_self, nil_append]
  by_cases htext : chunk.delta.content.getD [] ++ chunk.delta.refusal.getD [] = []
  · rw [if_neg (not_not.mpr htext), htext]
  · rw [if_pos htext]

theorem pieces_reasoned (chunk : ChatCompletionChunk) : chunk.pieces.flatMap (·.reasoned) =
    chunk.delta.reasoning.getD [] := by
  have hcalls : chunk.delta.toolCalls.flatMap (fun call => (Piece.call call).reasoned) = [] :=
    flatMap_eq_nil_iff.mpr fun _ _ => rfl
  rw [flatMap_pieces, hcalls, append_nil]
  simp only [Piece.reasoned, ite_self, append_nil]
  by_cases htext : chunk.delta.reasoning.getD [] = []
  · rw [if_neg (not_not.mpr htext), htext]
  · rw [if_pos htext]

theorem pieces_called (chunk : ChatCompletionChunk) : chunk.pieces.flatMap (·.called) =
    chunk.delta.toolCalls := by
  rw [flatMap_pieces]
  simp only [Piece.called, ite_self, nil_append, flatMap_singleton']

variable {completion : ChatCompletion}

theorem Splits.lacks (h : Splits completion chunks) (echo : ResponseEcho) (now : ℚ) :
    Lacks (completion.message.reasoning.getD [])
      (chunks.flatMap fun chunk => chunk.delta.content.getD [] ++ chunk.delta.refusal.getD [])
      completion.message.toolCalls (chunks.flatMap (·.pieces))
      (StreamTranslator.start { echo := echo, createdAt := now }).2 := by
  refine ⟨[], [], [], [], [], [], ?_, ?_⟩
  · rw [start, events_snd]
    exact {
      reasoningText := rfl
      textValue := rfl
      output := rfl
      phase := .closed rfl rfl rfl (.inl ⟨rfl, rfl⟩)
      toolCalls := rfl
      heard := .nil
      indexed := trivial
      opened := rfl }
  · exact {
      order := h.order
      afterText := fun hne => absurd rfl hne
      afterCalls := fun hne => absurd rfl hne
      real := by
        intro piece hmem
        obtain ⟨chunk, -, hpiece⟩ := mem_flatMap.mp hmem
        exact pieces_real chunk piece hpiece
      reasoning := by
        simp only [flatMap_assoc, pieces_reasoned, nil_append]
        exact h.reasoning
      text := by
        simp only [flatMap_assoc, pieces_texted, nil_append]
      calls := by
        simp only [flatMap_assoc, pieces_called]
        exact h.toolCalls }

theorem Splits.content_eq
    (h : Splits completion chunks) (hrefusal : completion.message.refusal.getD [] = []) :
    (chunks.flatMap fun chunk => chunk.delta.content.getD [] ++ chunk.delta.refusal.getD []) =
      completion.message.content.getD [] := by
  have hnone := h.refusal
  rw [hrefusal, flatMap_eq_nil_iff] at hnone
  rw [← h.content]
  refine flatMap_congr fun chunk hmem => ?_
  rw [hnone chunk hmem, append_nil]

theorem snapshot_anonymous (echo : ResponseEcho) (id : Id) (createdAt : ℚ) (model : Option Text)
    (status : Status) (output : List OutputItem) (finishReason : Option FinishReason)
    (usage : Option CompletionUsage) :
    (echo.response id createdAt model status output finishReason usage).anonymous =
      echo.response (.given []) 0 model status (output.map OutputItem.anonymous) finishReason
        usage := rfl

/-- What the stream answers with, up to ids and times: the whole response, with the stream's
items. -/
theorem Splits.terminalResponse (h : Splits completion chunks) (echo : ResponseEcho) (now : ℚ) :
    (terminalResponse (streamEvents echo now chunks)).map Response.anonymous =
      some (echo.response (.given []) 0 (some completion.model) .completed
        (saidItems (completion.message.reasoning.getD [])
            (chunks.flatMap fun chunk => chunk.delta.content.getD [] ++ chunk.delta.refusal.getD []) ++
          (namedFirst completion.message.toolCalls).map callItem)
        (completion.choices.head?.map (·.finishReason)) completion.usage) := by
  have hclosing := (h.lacks echo now).feedAll.closing
  have hterms := (feedAll_terms chunks h.model
    (StreamTranslator.start { echo := echo, createdAt := now }).2
    (.inr ⟨by rw [start, events_snd], h.nonempty⟩)).trans (closing_terms _)
  rw [h.finishReason, h.usage] at hterms
  rw [terminalResponse_streamEvents, map_some, snapshot, snapshot_anonymous, hclosing]
  generalize closing (feedAll _ chunks).2 = last at hterms ⊢
  have hecho : last.echo = echo := hterms.echo
  have hfinish : last.finishReason = completion.choices.head?.map (·.finishReason) :=
    hterms.finishReason.trans or_none
  have husage : last.usage = completion.usage := hterms.usage.trans or_none
  rw [hecho, hterms.model, hfinish, husage]
  rfl

theorem completionToResponse_anonymous (completion : ChatCompletion) (echo : ResponseEcho)
    (now : ℚ) : (completionToResponse completion echo now).anonymous =
      echo.response (.given []) 0 (some completion.model) .completed
        (saidItems (completion.message.reasoning.getD []) [] ++
          (messageItems completion.message ++ functionItems completion.message.toolCalls))
        (completion.choices.head?.map (·.finishReason)) completion.usage := by
  rw [completionToResponse, snapshot_anonymous, ChatCompletion.message]
  cases completion.choices with
  | nil => rfl
  | cons choice rest => simp only [List.head?_cons, map_some, getD_some,
      messageOutput_anonymous]

theorem response_inj {echo : ResponseEcho} {id : Id} {createdAt : ℚ} {model : Option Text}
    {status : Status} {output output' : List OutputItem} {finishReason : Option FinishReason}
    {usage : Option CompletionUsage} :
    echo.response id createdAt model status output finishReason usage =
      echo.response id createdAt model status output' finishReason usage ↔ output = output' :=
  ⟨congrArg Response.output, fun h => by rw [h]⟩

/-- **A streamed response agrees with the whole one** exactly where the completion has no refusal, no
call of a custom tool, and no call without a name before one with a name. -/
theorem stream_agrees_iff {completion : ChatCompletion} {chunks : List ChatCompletionChunk}
    (h : Splits completion chunks) (echo : ResponseEcho) (now now' : ℚ) :
    (terminalResponse (streamEvents echo now chunks)).map Response.anonymous =
        some (completionToResponse completion echo now').anonymous ↔
      Agreeable completion.message := by
  rw [h.terminalResponse, completionToResponse_anonymous, Option.some_inj, response_inj]
  rw [saidItems, saidItems, if_neg (not_not.mpr rfl), List.append_nil, List.append_assoc,
    List.append_cancel_left_eq]
  by_cases hrefusal : completion.message.refusal.getD [] = []
  · rw [h.content_eq hrefusal, messageItems_text hrefusal, List.append_cancel_left_eq, namedFirst_iff]
    exact ⟨fun ⟨hall, hpair⟩ => ⟨hrefusal, hall, hpair⟩, fun hagree => ⟨hagree.functions, hagree.named⟩⟩
  · exact iff_of_false (messageItems_refusal hrefusal _ _ _) fun hagree => hrefusal hagree.refusal

def sampleCompletion (message : CompletionMessage) : ChatCompletion :=
  { created := 1, model := ['m'], choices := [{ finishReason := .stop, message := message }] }

def stopChunk (delta : ChoiceDelta) : ChatCompletionChunk :=
  { model := ['m'], choices := [{ delta := delta, finishReason := some .stop }] }

/-- A text in two chunks and a call in two. -/
def splitCall : List ChatCompletionChunk :=
  [sampleChunk { content := some ['a'] },
    sampleChunk { content := some ['b'], toolCalls := [sampleCall] },
    stopChunk { toolCalls := [{ index := 0, function := some ⟨none, some ['y']⟩ }] }]

def wholeCall : CompletionMessage :=
  { content := some ['a', 'b'], toolCalls := [⟨['c'], some ⟨['f'], some ['x', 'y']⟩⟩] }

theorem splitCall_splits : Splits (sampleCompletion wholeCall) splitCall where
  nonempty := by decide
  model := by decide
  usage := rfl
  finishReason := rfl
  order := by decide
  reasoning := rfl
  content := rfl
  refusal := rfl
  toolCalls := .inl ⟨⟨['c'], some ⟨['f'], some ['x', 'y']⟩⟩, ⟨rfl, rfl, rfl⟩,
    .inr ⟨[], _, _, [], rfl, ⟨rfl, .inl rfl, .inl rfl⟩, rfl⟩⟩

theorem split_call_agrees :
    (terminalResponse (streamEvents sampleEcho 0 splitCall)).map Response.anonymous =
      some (completionToResponse (sampleCompletion wholeCall) sampleEcho 0).anonymous :=
  (stream_agrees_iff splitCall_splits sampleEcho 0 0).mpr ⟨rfl, by decide, by decide⟩

/-- A refusal is a refusal part of the whole response, and an output text of the stream's. -/
theorem streamed_refusal_differs :
    Splits (sampleCompletion { refusal := some ['n'] }) [stopChunk { refusal := some ['n'] }] ∧
      (completionToResponse (sampleCompletion { refusal := some ['n'] }) sampleEcho 0).output =
        [.message (.minted .msg 2) [.refusal ['n']] .completed] ∧
      (terminalResponse (streamEvents sampleEcho 0 [stopChunk { refusal := some ['n'] }])).map
          (·.output) = some [.message (.minted .msg 1) [.outputText ['n']] .completed] ∧
      (terminalResponse (streamEvents sampleEcho 0 [stopChunk { refusal := some ['n'] }])).map
          Response.anonymous ≠
        some (completionToResponse (sampleCompletion { refusal := some ['n'] }) sampleEcho
          0).anonymous := by
  refine ⟨⟨by decide, by decide, rfl, rfl, by decide, rfl, rfl, rfl, rfl⟩, rfl, rfl, fun h => ?_⟩
  have hparts := congrArg (Option.map (·.output)) h
  revert hparts
  decide

end Otari.Bridge

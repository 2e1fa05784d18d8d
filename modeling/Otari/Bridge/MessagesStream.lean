import Otari.Bridge.Messages

/-!
# Bridge — MessagesStream — what a client makes of a translated stream

A Responses stream is a list of items, each with the deltas that fill it (`Streams`).  What the
translator makes of it is accepted by a client that puts the blocks together (`Accumulator`), which
ends with the content, the stop reason and the usage of the whole response's translation
(`stream_accumulates`).  `Working` is where the translator and the client are in between.
-/

namespace Otari.Messages
open StreamTranslator
open Option hiding all all_map map map_map
open List hiding next

/-! ### The client -/

/-- A block as far as its deltas filled it; a call has the JSON text of its input. -/
inductive Fill where
  | thinking (thinking signature : Text)
  | text (text : Text)
  | toolUse (id name json : Text)
deriving DecidableEq

def Fill.isText : Fill → Bool
  | .text _ => true
  | _ => false

def Fill.start {Dict : Type} : Block Dict → Option Fill
  | .thinking words sign => some (.thinking words sign)
  | .text words => some (.text words)
  | .toolUse id name _ => some (.toolUse id name [])
  | .other => none

def Fill.add : Fill → Delta → Option Fill
  | .thinking words sign, .thinking more => some (.thinking (words ++ more) sign)
  | .thinking words _, .signature sign => some (.thinking words sign)
  | .text words, .text more => some (.text (words ++ more))
  | .toolUse id name json, .inputJson more => some (.toolUse id name (json ++ more))
  | _, _ => none

def Fill.finish {Dict : Type} (library : Library Dict) : Fill → Block Dict
  | .thinking words sign => .thinking words sign
  | .text words => .text words
  | .toolUse id name json => .toolUse id name (toolInput library json)

structure Slot where
  fill : Fill
  opened : Bool
deriving DecidableEq

/-- What a client has of a message: its head, its blocks, and its stop reason and usage. -/
structure Accumulator where
  head : Option (Option Text × Text) := none
  blocks : List Slot := []
  ending : Option (StopReason × Option MessageUsage) := none
  stopped : Bool := false
deriving DecidableEq

/-- Whether a block may start now: nothing else is open, but for texts beside a text. -/
def Accumulator.mayStart (a : Accumulator) (fill : Fill) : Bool :=
  a.blocks.all fun slot => !slot.opened || (slot.fill.isText && fill.isText)

/-- **One event**, or nothing where a well-formed message has no place for it: the message starts
once, a block starts under the next index, has its deltas while it is open and then stops, and with
all of them stopped the message ends. -/
def Accumulator.accept {Dict : Type} (a : Accumulator) : MessageEvent Dict → Option Accumulator
  | .messageStart id model =>
    if a.head = none then some { a with head := some (id, model) } else none
  | .contentBlockStart index block =>
    (Fill.start block).bind fun fill =>
      if a.head.isSome ∧ a.ending = none ∧ index = a.blocks.length ∧ a.mayStart fill then
        some { a with blocks := a.blocks ++ [⟨fill, true⟩] }
      else none
  | .contentBlockDelta index delta =>
    (a.blocks[index]?).bind fun slot =>
      if slot.opened then
        (slot.fill.add delta).map fun fill => { a with blocks := a.blocks.set index ⟨fill, true⟩ }
      else none
  | .contentBlockStop index =>
    (a.blocks[index]?).bind fun slot =>
      if slot.opened then some { a with blocks := a.blocks.set index ⟨slot.fill, false⟩ } else none
  | .messageDelta stopReason usage =>
    if a.head.isSome ∧ a.ending = none ∧ a.blocks.all (!·.opened) then
      some { a with ending := some (stopReason, usage) }
    else none
  | .messageStop =>
    if a.ending.isSome ∧ a.stopped = false then some { a with stopped := true } else none

def Accumulator.acceptAll {Dict : Type} (a : Accumulator) :
    List (MessageEvent Dict) → Option Accumulator
  | [] => some a
  | event :: events => (a.accept event).bind fun a => a.acceptAll events

def Accumulator.message {Dict : Type} (library : Library Dict) (a : Accumulator) :
    Option (MessageResponse Dict) :=
  match a.head, a.ending, a.stopped with
  | some (id, model), some (stopReason, usage), true =>
    some {
      id := id
      model := model
      content := a.blocks.map fun slot => slot.fill.finish library
      stopReason := stopReason
      usage := usage }
  | _, _, _ => none

def accumulate {Dict : Type} (library : Library Dict) (events : List (MessageEvent Dict)) :
    Option (MessageResponse Dict) :=
  (Accumulator.acceptAll {} events).bind fun a => a.message library

/-! ### Responses streams -/

/-- A content part, with the deltas that fill it. -/
inductive StreamedPart where
  | outputText (deltas : List Text)
  | refusal (deltas : List Text)
  | other

def StreamedPart.deltas : StreamedPart → List Text
  | .outputText deltas | .refusal deltas => deltas
  | .other => []

def StreamedPart.part : StreamedPart → Part
  | .outputText deltas => .outputText deltas.flatten
  | .refusal deltas => .refusal deltas.flatten
  | .other => .other

def Part.text : Part → Text
  | .outputText text | .refusal text => text
  | .other => []

/-- An output item, with what fills it.  `lateMessage` is a message none of whose text streams, and
`late` the arguments of a call without deltas; these come with the item's done event. -/
inductive StreamedItem where
  | reasoning (id : Text) (summary : List (List Text)) (encryptedContent : Option Text)
  | message (parts : List StreamedPart)
  | lateMessage (parts : List Part)
  | functionCall (callId name : Text) (deltas : List Text) (late : Text)
  | other

def StreamedItem.item : StreamedItem → OutputItem
  | .reasoning id summary encryptedContent =>
    .reasoning id (summary.map List.flatten) encryptedContent
  | .message parts => .message (parts.map (·.part))
  | .lateMessage parts => .message parts
  | .functionCall callId name deltas late =>
    .functionCall callId name (if deltas = [] then late else deltas.flatten)
  | .other => .other

/-- The item without the content parts that are empty and had no delta. -/
def StreamedItem.shown : StreamedItem → OutputItem
  | .message parts => .message ((parts.filter fun part => part.deltas ≠ []).map (·.part))
  | .lateMessage parts => .message (parts.filter fun part => part.text ≠ [])
  | item => item.item

def StreamedItem.added : StreamedItem → OutputItem
  | .reasoning id _ _ => .reasoning id [] none
  | .message _ | .lateMessage _ => .message []
  | .functionCall callId name _ _ => .functionCall callId name []
  | .other => .other

def summaryEvents (outputIndex summaryIndex : ℕ) : List (List Text) → List Event
  | [] => []
  | deltas :: summary =>
    .reasoningSummaryPartAdded outputIndex summaryIndex ::
      deltas.map (.reasoningSummaryTextDelta outputIndex) ++
      summaryEvents outputIndex (summaryIndex + 1) summary

def StreamedPart.events (outputIndex contentIndex : ℕ) : StreamedPart → List Event
  | .outputText deltas => deltas.map (.outputTextDelta outputIndex contentIndex)
  | .refusal deltas => deltas.map (.refusalDelta outputIndex contentIndex)
  | .other => []

def partEvents (outputIndex contentIndex : ℕ) : List StreamedPart → List Event
  | [] => []
  | part :: parts =>
    part.events outputIndex contentIndex ++ partEvents outputIndex (contentIndex + 1) parts

/-- What fills an item between its added and its done event. -/
def StreamedItem.filling (outputIndex : ℕ) : StreamedItem → List Event
  | .reasoning _ summary _ => summaryEvents outputIndex 0 summary
  | .message parts => partEvents outputIndex 0 parts
  | .functionCall _ _ deltas _ => deltas.map (.functionCallArgumentsDelta outputIndex)
  | .lateMessage _ | .other => []

def itemEvents (outputIndex : ℕ) : List StreamedItem → List Event
  | [] => []
  | item :: items =>
    .outputItemAdded outputIndex item.added :: item.filling outputIndex ++
      .outputItemDone outputIndex item.item :: itemEvents (outputIndex + 1) items

def Event.isOther : Event → Bool
  | .other => true
  | _ => false

/-- **A well-formed Responses stream** that comes to its end: it is created, goes through its items
one after another, and ends with the response they are the output of.  Events of other types stand
anywhere. -/
structure Streams (events : List Event) (items : List StreamedItem) (response : Response) : Prop where
  output : response.output = items.map (·.item)
  events : ∃ first, ∃ again : List Response, ∃ last, events.filter (!·.isOther) =
      .created first :: again.map .inProgress ++ (itemEvents 0 items ++ [last]) ∧
    (last = .completed response ∨ last = .incomplete response)

/-! ### Steps -/

section
variable {Dict : Type} (library : Library Dict) {name : Text}

/-- What the client makes of a step's events, with the translator after it. -/
def Reaches (Dict : Type) (a : Accumulator) (step : List (MessageEvent Dict) × StreamTranslator)
    (P : Accumulator → StreamTranslator → Prop) : Prop :=
  ∃ a', a.acceptAll step.1 = some a' ∧ P a' step.2

theorem acceptAll_append (a : Accumulator) (events more : List (MessageEvent Dict)) :
    a.acceptAll (events ++ more) = (a.acceptAll events).bind fun a => a.acceptAll more := by
  induction events generalizing a with
  | nil => rfl
  | cons event events ih =>
    rw [cons_append, Accumulator.acceptAll, Accumulator.acceptAll, bind_assoc]
    simp only [ih]

variable {a : Accumulator} {tr : StreamTranslator} {P Q : Accumulator → StreamTranslator → Prop}

theorem Reaches.idle (h : P a tr) : Reaches Dict a ([], tr) P := ⟨a, rfl, h⟩

variable {step : List (MessageEvent Dict) × StreamTranslator}

theorem Reaches.mono (h : Reaches Dict a step P)
    (hmono : ∀ a tr, P a tr → Q a tr) : Reaches Dict a step Q := by
  obtain ⟨a', haccept, hP⟩ := h
  exact ⟨a', haccept, hmono a' step.2 hP⟩

theorem Reaches.next
    {f : StreamTranslator → List (MessageEvent Dict) × StreamTranslator} (h : Reaches Dict a step P)
    (hnext : ∀ a tr, P a tr → Reaches Dict a (f tr) Q) :
    Reaches Dict a (StreamTranslator.next step f) Q := by
  obtain ⟨a', haccept, hP⟩ := h
  obtain ⟨a'', haccept', hQ⟩ := hnext a' step.2 hP
  refine ⟨a'', ?_, hQ⟩
  rw [StreamTranslator.next, acceptAll_append, haccept, bind_some, haccept']

/-- The translator over events that do not fail. -/
def StreamTranslator.translateAll (tr : StreamTranslator) (name : Text) :
    List Event → Except (Option Text) (List (MessageEvent Dict) × StreamTranslator)
  | [] => .ok ([], tr)
  | event :: events =>
    (tr.translate library name event).bind fun step =>
      (step.2.translateAll name events).map fun rest => (step.1 ++ rest.1, rest.2)

variable {events : List Event}

theorem translateAll_append {more : List Event} {rest : List (MessageEvent Dict) × StreamTranslator}
    (h : tr.translateAll library name events = .ok step)
    (hmore : step.2.translateAll library name more = .ok rest) :
    tr.translateAll library name (events ++ more) = .ok (step.1 ++ rest.1, rest.2) := by
  induction events generalizing tr step with
  | nil =>
    cases h
    exact hmore
  | cons event events ih =>
    rw [translateAll] at h
    cases hfirst : tr.translate library name event with
    | error code =>
      rw [hfirst] at h
      cases h
    | ok first =>
      rw [hfirst] at h
      cases hafter : first.2.translateAll library name events with
      | error code =>
        simp only [Except.bind, hafter, Except.map] at h
        cases h
      | ok after =>
        simp only [Except.bind, hafter, Except.map] at h
        cases h
        rw [cons_append, translateAll, hfirst]
        simp only [Except.bind, ih hafter hmore, Except.map, append_assoc]

/-- What the client makes of the translation of some events. -/
def Arrives (name : Text) (a : Accumulator) (tr : StreamTranslator) (events : List Event)
    (P : Accumulator → StreamTranslator → Prop) : Prop :=
  ∃ step, tr.translateAll library name events = .ok step ∧ Reaches Dict a step P

theorem Arrives.nil (h : P a tr) : Arrives library name a tr [] P := ⟨([], tr), rfl, .idle h⟩

theorem Arrives.mono (h : Arrives library name a tr events P)
    (hmono : ∀ a tr, P a tr → Q a tr) : Arrives library name a tr events Q := by
  obtain ⟨step, heq, hreach⟩ := h
  exact ⟨step, heq, hreach.mono hmono⟩

theorem Arrives.cons {event : Event}
    (heq : tr.translate library name event = .ok step) (h : Reaches Dict a step P)
    (hrest : ∀ a tr, P a tr → Arrives library name a tr events Q) :
    Arrives library name a tr (event :: events) Q := by
  obtain ⟨a', haccept, hP⟩ := h
  obtain ⟨rest, heq', a'', haccept', hQ⟩ := hrest a' step.2 hP
  refine ⟨(step.1 ++ rest.1, rest.2), ?_, a'', ?_, hQ⟩
  · rw [translateAll, heq]
    simp only [Except.bind, heq', Except.map]
  · rw [acceptAll_append, haccept, bind_some, haccept']

theorem Arrives.append {more : List Event} (h : Arrives library name a tr events P)
    (hmore : ∀ a tr, P a tr → Arrives library name a tr more Q) :
    Arrives library name a tr (events ++ more) Q := by
  obtain ⟨step, heq, a', haccept, hP⟩ := h
  obtain ⟨rest, heq', a'', haccept', hQ⟩ := hmore a' step.2 hP
  refine ⟨(step.1 ++ rest.1, rest.2), translateAll_append library heq heq', a'', ?_, hQ⟩
  rw [acceptAll_append, haccept, bind_some, haccept']

/-! ### Where the translator and the client are -/

/-- What the translator notes beside its open blocks. -/
structure Notes where
  pending : Finset ℕ
  arguments : Finset ℕ
  called : Bool
  refused : Bool

def StreamTranslator.notes (tr : StreamTranslator) : Notes :=
  ⟨tr.pendingReasoning, tr.argumentsStreamed, tr.toolCalled, tr.refused⟩

/-- **The client has the finished blocks and then the open ones**, which the translator has under
their keys, and neither has come to the end. -/
structure Working (content : List (Block Dict)) (opens : List (Key × Fill)) (notes : Notes)
    (a : Accumulator) (tr : StreamTranslator) : Prop where
  blocks : ∃ done : List Fill, done.map (·.finish library) = content ∧
    a.blocks = done.map (⟨·, false⟩) ++ opens.map (⟨·.2, true⟩) ∧
    tr.opened = (opens.map Prod.fst).zipIdx done.length ∧
    tr.nextIndex = done.length + opens.length
  notes : tr.notes = notes
  head : a.head.isSome = true
  ending : a.ending = none
  stopped : a.stopped = false
  started : tr.started = true

variable {content : List (Block Dict)} {opens : List (Key × Fill)} {notes : Notes} {key : Key}
  {fill : Fill}

theorem lookup_zipIdx_none {keys : List Key} (h : key ∉ keys) (n : ℕ) :
    (keys.zipIdx n).lookup key = none := by
  rw [lookup_eq_none_iff]
  intro entry hmem
  have hkey := fst_mem_of_mem_zipIdx hmem
  simpa using fun heq : key = entry.1 => h (heq ▸ hkey)

theorem lookup_zipIdx_concat {keys : List Key} (h : key ∉ keys) (n : ℕ) :
    ((keys ++ [key]).zipIdx n).lookup key = some (n + keys.length) := by
  rw [zipIdx_append, lookup_append, lookup_zipIdx_none h]
  simp [List.zipIdx]

theorem Working.indexOf_none (h : Working library content opens notes a tr)
    (hkey : key ∉ opens.map Prod.fst) : tr.indexOf key = none := by
  obtain ⟨done, -, -, hopened, -⟩ := h.blocks
  rw [indexOf, hopened, lookup_zipIdx_none hkey]

theorem Working.start (h : Working library content opens notes a tr)
    (hkey : key ∉ opens.map Prod.fst) {block : Block Dict} (hfill : Fill.start block = some fill)
    (hmay : ∀ entry ∈ opens, entry.2.isText = true ∧ fill.isText = true) :
    Reaches Dict a (tr.start key block) (Working library content (opens ++ [(key, fill)]) notes) := by
  obtain ⟨done, hdone, hblocks, hopened, hnext⟩ := h.blocks
  have hlength : tr.nextIndex = a.blocks.length := by
    rw [hnext, hblocks]
    simp
  have hstart : a.mayStart fill = true := by
    rw [Accumulator.mayStart, hblocks, all_append, all_map, all_map,
      Bool.and_eq_true]
    refine ⟨all_eq_true.mpr fun _ _ => rfl, all_eq_true.mpr fun entry hmem => ?_⟩
    obtain ⟨htext, hnew⟩ := hmay entry hmem
    simp [htext, hnew]
  have hkeep : tr.opened.filter (fun entry => entry.1 ≠ key) = tr.opened := by
    rw [filter_eq_self, hopened]
    intro entry hmem
    have hmem' := fst_mem_of_mem_zipIdx hmem
    simpa using fun heq : entry.1 = key => hkey (heq ▸ hmem')
  refine ⟨{ a with blocks := a.blocks ++ [⟨fill, true⟩] }, ?_, ?_⟩
  · simp only [StreamTranslator.start, Accumulator.acceptAll, Accumulator.accept, hfill,
      bind_some, h.head, h.ending, hlength, hstart, and_self, if_true]
  · exact {
      blocks := by
        refine ⟨done, hdone, by simp [hblocks], ?_, ?_⟩
        · rw [StreamTranslator.start, hkeep, hopened, hnext, map_append, zipIdx_append,
            length_map]
          rfl
        · rw [StreamTranslator.start, hnext, length_append]
          rfl
      notes := h.notes
      head := h.head
      ending := h.ending
      stopped := h.stopped
      started := h.started }

theorem Working.delta (h : Working library content (opens ++ [(key, fill)]) notes a tr)
    (hkey : key ∉ opens.map Prod.fst) {delta : Delta} {more : Fill}
    (hadd : fill.add delta = some more) {tr' : StreamTranslator} (htr : tr'.opened = tr.opened)
    (hnext : tr'.nextIndex = tr.nextIndex) (hstarted : tr'.started = tr.started) :
    Reaches Dict a (tr.delta key delta, tr')
      (Working library content (opens ++ [(key, more)]) tr'.notes) := by
  obtain ⟨done, hdone, hblocks, hopened, hindex⟩ := h.blocks
  have hlookup : tr.indexOf key = some (done.length + opens.length) := by
    rw [indexOf, hopened, map_append, map_cons, map_nil, lookup_zipIdx_concat hkey,
      length_map]
  have hget : a.blocks[done.length + opens.length]? = some ⟨fill, true⟩ := by
    rw [hblocks]
    simp
  refine ⟨{ a with blocks := a.blocks.set (done.length + opens.length) ⟨more, true⟩ }, ?_, ?_⟩
  · simp only [StreamTranslator.delta, hlookup, toList_some, map_cons, map_nil,
      Accumulator.acceptAll, Accumulator.accept, hget, bind_some, if_true, hadd,
      map_some]
  · exact {
      blocks := by
        refine ⟨done, hdone, ?_, ?_, ?_⟩
        · rw [hblocks, map_append, map_append]
          simp [set_append_right]
        · rw [htr, hopened, map_append, map_append]
          rfl
        · rw [hnext, hindex, length_append, length_append]
          rfl
      notes := rfl
      head := h.head
      ending := h.ending
      stopped := h.stopped
      started := hstarted.trans h.started }

theorem Working.onlyDelta (h : Working library content [(key, fill)] notes a tr) {delta : Delta}
    {more : Fill} (hadd : fill.add delta = some more) : Reaches Dict a (tr.delta key delta, tr)
      (Working library content [(key, more)] notes) := by
  have honly : Working library content ([] ++ [(key, fill)]) notes a tr := h
  have hreach := honly.delta library not_mem_nil hadd (Eq.refl tr.opened) rfl rfl
  rwa [h.notes] at hreach

theorem acceptAll_stops (done : List Fill) (a : Accumulator)
    (hblocks : a.blocks = done.map (⟨·, false⟩) ++ opens.map (⟨·.2, true⟩)) :
    a.acceptAll ((((opens.map Prod.fst).zipIdx done.length).map fun entry =>
        .contentBlockStop entry.2) : List (MessageEvent Dict)) =
      some { a with blocks := (done ++ opens.map (·.2)).map (⟨·, false⟩) } := by
  induction opens generalizing done a with
  | nil =>
    rw [map_nil, append_nil] at hblocks
    simp only [map_nil, append_nil, ← hblocks]
    rfl
  | cons entry opens ih =>
    have hget : a.blocks[done.length]? = some ⟨entry.2, true⟩ := by
      rw [hblocks]
      simp
    have hset : a.blocks.set done.length ⟨entry.2, false⟩ =
        (done ++ [entry.2]).map (⟨·, false⟩) ++ opens.map (⟨·.2, true⟩) := by
      rw [hblocks]
      simp
    have hrest := ih (done ++ [entry.2])
      { a with blocks := a.blocks.set done.length ⟨entry.2, false⟩ } hset
    rw [length_append, length_singleton] at hrest
    simp only [map_cons, zipIdx_cons, Accumulator.acceptAll, Accumulator.accept, hget,
      bind_some, if_true, hrest]
    simp

theorem Working.stop (h : Working library content opens notes a tr) {picks : Key → Bool}
    (hpicks : ∀ entry ∈ opens, picks entry.1 = true) :
    Reaches Dict a (tr.stop picks) (Working library
      (content ++ opens.map (·.2.finish library)) [] notes) := by
  obtain ⟨done, hdone, hblocks, hopened, hnext⟩ := h.blocks
  have hall : ∀ entry ∈ tr.opened, picks entry.1 = true := by
    intro entry hmem
    rw [hopened] at hmem
    obtain ⟨open_, hopen, heq⟩ := mem_map.mp (fst_mem_of_mem_zipIdx hmem)
    rw [← heq]
    exact hpicks open_ hopen
  refine ⟨{ a with blocks := (done ++ opens.map (·.2)).map (⟨·, false⟩) }, ?_, ?_⟩
  · rw [StreamTranslator.stop, filter_eq_self.mpr hall, hopened]
    exact acceptAll_stops done a hblocks
  · exact {
      blocks := by
        refine ⟨done ++ opens.map (·.2), ?_, by simp, ?_, ?_⟩
        · rw [map_append, hdone, map_map]
          rfl
        · have hnone : tr.opened.filter (fun entry => !picks entry.1) = [] := by
            rw [filter_eq_nil_iff]
            intro entry hmem
            simp [hall entry hmem]
          exact hnone
        · rw [length_append, length_map]
          exact hnext
      notes := h.notes
      head := h.head
      ending := h.ending
      stopped := h.stopped
      started := h.started }

/-! ### Messages -/

/-- The blocks open are texts, under content indexes of the item below one. -/
structure Below (outputIndex contentIndex : ℕ) (opens : List (Key × Fill)) : Prop where
  texts : ∀ entry ∈ opens, entry.2.isText = true
  keys : ∀ entry ∈ opens, entry.1.1 = outputIndex ∧ entry.1.2 < contentIndex

variable {outputIndex contentIndex : ℕ}

theorem Below.not_mem (h : Below outputIndex contentIndex opens) :
    (outputIndex, contentIndex) ∉ opens.map Prod.fst := by
  intro hmem
  obtain ⟨entry, hentry, heq⟩ := mem_map.mp hmem
  have hlt := (h.keys entry hentry).2
  rw [heq] at hlt
  exact absurd hlt (lt_irrefl _)

theorem Below.succ (h : Below outputIndex contentIndex opens) :
    Below outputIndex (contentIndex + 1) opens :=
  ⟨h.texts, fun entry hmem => ⟨(h.keys entry hmem).1, Nat.lt_succ_of_lt (h.keys entry hmem).2⟩⟩

theorem Below.concat (h : Below outputIndex contentIndex opens) (text : Text) :
    Below outputIndex (contentIndex + 1)
      (opens ++ [((outputIndex, contentIndex), .text text)]) := by
  constructor
  · intro entry hmem
    rcases mem_append.mp hmem with hold | hnew
    · exact h.texts entry hold
    · rw [mem_singleton.mp hnew]
      rfl
  · intro entry hmem
    rcases mem_append.mp hmem with hold | hnew
    · exact h.succ.keys entry hold
    · rw [mem_singleton.mp hnew]
      exact ⟨rfl, Nat.lt_succ_self _⟩

theorem Working.firstText (h : Working library content opens notes a tr)
    (hbelow : Below outputIndex contentIndex opens) (text : Text) :
    Reaches Dict a (tr.textDelta (outputIndex, contentIndex) text) (Working library content
      (opens ++ [((outputIndex, contentIndex), .text text)]) notes) := by
  rw [textDelta, if_pos (h.indexOf_none library hbelow.not_mem)]
  refine (h.start library hbelow.not_mem rfl fun entry hmem => ⟨hbelow.texts entry hmem, rfl⟩).next
    fun a' tr' h' => ?_
  split
  · rename_i hempty
    rw [hempty]
    exact .idle h'
  · have hreach := h'.delta library hbelow.not_mem
      (show (Fill.text []).add (.text text) = some (.text text) from rfl) (Eq.refl tr'.opened) rfl rfl
    rwa [h'.notes] at hreach

theorem Working.indexOf_ne_none (h : Working library content (opens ++ [(key, fill)]) notes a tr)
    (hkey : key ∉ opens.map Prod.fst) : tr.indexOf key ≠ none := by
  obtain ⟨done, -, -, hopened, -⟩ := h.blocks
  rw [indexOf, hopened, map_append, map_cons, map_nil, lookup_zipIdx_concat hkey]
  exact some_ne_none _

theorem Working.moreText {sofar : Text}
    (h : Working library content (opens ++ [((outputIndex, contentIndex), .text sofar)]) notes a tr)
    (hbelow : Below outputIndex contentIndex opens) (text : Text) :
    Reaches Dict a (tr.textDelta (outputIndex, contentIndex) text) (Working library content
      (opens ++ [((outputIndex, contentIndex), .text (sofar ++ text))]) notes) := by
  rw [textDelta, if_neg (h.indexOf_ne_none library hbelow.not_mem)]
  refine (Reaches.idle h).next fun a' tr' h' => ?_
  split
  · rename_i hempty
    rw [hempty, append_nil]
    exact .idle h'
  · have hreach := h'.delta library hbelow.not_mem
      (show (Fill.text sofar).add (.text text) = some (.text (sofar ++ text)) from rfl)
      (Eq.refl tr'.opened) rfl rfl
    rwa [h'.notes] at hreach

theorem Working.note (h : Working library content opens notes a tr) {tr' : StreamTranslator}
    (hopened : tr'.opened = tr.opened) (hnext : tr'.nextIndex = tr.nextIndex)
    (hstarted : tr'.started = tr.started) : Working library content opens tr'.notes a tr' where
  blocks := by rw [hopened, hnext]; exact h.blocks
  notes := rfl
  head := h.head
  ending := h.ending
  stopped := h.stopped
  started := hstarted.trans h.started

def Notes.refuse (notes : Notes) (refused : Bool) : Notes :=
  { notes with refused := notes.refused || refused }

theorem Working.deltas (h : Working library content opens notes a tr)
    (hbelow : Below outputIndex contentIndex opens) {event : Text → Event} (refused : Bool)
    (hevent : ∀ (tr : StreamTranslator) delta, tr.translate library name (event delta) =
      .ok ({ tr with refused := tr.refused || refused }.textDelta (outputIndex, contentIndex) delta))
    (delta : Text) (deltas : List Text) :
    Arrives library name a tr ((delta :: deltas).map event) (Working library content
      (opens ++ [((outputIndex, contentIndex), .text (delta :: deltas).flatten)])
        (notes.refuse refused)) := by
  have hmore : ∀ (deltas : List Text) (sofar : Text) (a : Accumulator) (tr : StreamTranslator),
      Working library content (opens ++ [((outputIndex, contentIndex), .text sofar)])
        (notes.refuse refused) a tr →
      Arrives library name a tr (deltas.map event) (Working library content
        (opens ++ [((outputIndex, contentIndex), .text (sofar ++ deltas.flatten))])
          (notes.refuse refused)) := by
    intro deltas
    induction deltas with
    | nil =>
      intro sofar a tr h
      rw [flatten_nil, append_nil]
      exact .nil library h
    | cons delta deltas ih =>
      intro sofar a tr h
      -- the refusal is noted already
      have hnoted : { tr with refused := tr.refused || refused } = tr := by
        have hrefused : tr.refused = (notes.refused || refused) :=
          congrArg Notes.refused h.notes
        rw [hrefused, Bool.or_assoc, Bool.or_self, ← hrefused]
      have hreach := h.moreText library hbelow delta
      rw [← hnoted] at hreach
      refine .cons library (hevent tr delta) hreach fun a' tr' h' => ?_
      rw [flatten_cons, ← append_assoc]
      exact ih _ a' tr' h'
  refine .cons library (hevent tr delta) ?_ fun a' tr' h' => hmore deltas delta a' tr' h'
  have hnoted : Working library content opens _ a { tr with refused := tr.refused || refused } :=
    h.note library rfl rfl rfl
  have hnotes : StreamTranslator.notes { tr with refused := tr.refused || refused } =
      notes.refuse refused := by
    rw [← h.notes]
    rfl
  rw [hnotes] at hnoted
  exact hnoted.firstText library hbelow delta

def StreamedPart.refuses : StreamedPart → Bool
  | .refusal deltas => deltas ≠ []
  | _ => false

/-- The block of a part, if a delta opened it. -/
def StreamedPart.fills (key : Key) (part : StreamedPart) : List (Key × Fill) :=
  if part.deltas = [] then [] else [(key, .text part.deltas.flatten)]

def partFills (outputIndex contentIndex : ℕ) : List StreamedPart → List (Key × Fill)
  | [] => []
  | part :: parts => part.fills (outputIndex, contentIndex) ++
    partFills outputIndex (contentIndex + 1) parts

theorem Notes.refuse_false (notes : Notes) : notes.refuse false = notes := by
  rw [refuse, Bool.or_false]

theorem Notes.refuse_refuse (notes : Notes) (first second : Bool) :
    (notes.refuse first).refuse second = notes.refuse (first || second) := by
  simp only [refuse, Bool.or_assoc]

theorem Working.part (h : Working library content opens notes a tr)
    (hbelow : Below outputIndex contentIndex opens) (part : StreamedPart) :
    Arrives library name a tr (part.events outputIndex contentIndex) (Working library content
      (opens ++ part.fills (outputIndex, contentIndex)) (notes.refuse part.refuses)) := by
  have hnone : Working library content (opens ++ []) (notes.refuse false) a tr := by
    rwa [append_nil, Notes.refuse_false]
  cases part with
  | outputText deltas =>
    cases deltas with
    | nil => exact .nil library hnone
    | cons delta deltas =>
      refine h.deltas library hbelow false (fun tr delta => ?_) delta deltas
      rw [StreamTranslator.translate, Bool.or_false]
  | refusal deltas =>
    cases deltas with
    | nil => exact .nil library hnone
    | cons delta deltas =>
      refine h.deltas library hbelow true (fun tr delta => ?_) delta deltas
      rw [StreamTranslator.translate, Bool.or_true]
  | other => exact .nil library hnone

theorem Below.fills (h : Below outputIndex contentIndex opens) (part : StreamedPart) :
    Below outputIndex (contentIndex + 1) (opens ++ part.fills (outputIndex, contentIndex)) := by
  rw [StreamedPart.fills]
  split
  · rw [append_nil]
    exact h.succ
  · exact h.concat _

theorem Working.parts (h : Working library content opens notes a tr)
    (hbelow : Below outputIndex contentIndex opens) (parts : List StreamedPart) :
    Arrives library name a tr (partEvents outputIndex contentIndex parts) (Working library content
      (opens ++ partFills outputIndex contentIndex parts)
        (notes.refuse (parts.any (·.refuses)))) := by
  induction parts generalizing opens notes contentIndex a tr with
  | nil =>
    refine .nil library ?_
    rwa [partFills, append_nil, any_nil, Notes.refuse_false]
  | cons part parts ih =>
    refine (h.part library hbelow part).append library fun a' tr' h' => ?_
    have hrest := ih h' (hbelow.fills part)
    rwa [append_assoc, Notes.refuse_refuse, ← any_cons] at hrest

theorem Working.indexOf_mem (h : Working library content opens notes a tr)
    (hmem : key ∈ opens.map Prod.fst) : tr.indexOf key ≠ none := by
  obtain ⟨done, -, -, hopened, -⟩ := h.blocks
  rw [indexOf, hopened, Ne, lookup_eq_none_iff]
  intro hall
  obtain ⟨index, hindex, hget⟩ := getElem_of_mem hmem
  have hentry : (key, done.length + index) ∈ (opens.map Prod.fst).zipIdx done.length := by
    rw [mk_add_mem_zipIdx_iff_getElem?, List.getElem?_eq_getElem hindex, hget]
  simpa using hall _ hentry

theorem partsDone_idle (parts : List StreamedPart)
    (hkeys : ∀ key ∈ (partFills outputIndex contentIndex parts).map Prod.fst,
      tr.indexOf key ≠ none) : tr.partsDone outputIndex contentIndex (parts.map (·.part)) =
      (([], tr) : List (MessageEvent Dict) × StreamTranslator) := by
  induction parts generalizing contentIndex with
  | nil => rfl
  | cons part parts ih =>
    rw [partFills, map_append] at hkeys
    have hrest := ih fun key hmem => hkeys key (mem_append_right _ hmem)
    have hidle : tr.partDone (outputIndex, contentIndex) part.part =
        (([], tr) : List (MessageEvent Dict) × StreamTranslator) := by
      rw [partDone.eq_def]
      split
      · rfl
      · rename_i hnone
        have hsilent : part.deltas = [] := by
          by_contra hne
          refine hnone (hkeys (outputIndex, contentIndex) (mem_append_left _ ?_))
          rw [StreamedPart.fills, if_neg hne]
          exact mem_singleton.mpr rfl
        cases part with
        | outputText deltas =>
          obtain rfl : deltas = [] := hsilent
          rfl
        | refusal deltas =>
          obtain rfl : deltas = [] := hsilent
          rfl
        | other => rfl
    rw [map_cons, partsDone, hidle, StreamTranslator.next, hrest]
    rfl

/-- Whether a part that comes late notes a refusal. -/
def Part.refuses : Part → Bool
  | .refusal words => words ≠ []
  | _ => false

def lateFills (outputIndex contentIndex : ℕ) : List Part → List (Key × Fill)
  | [] => []
  | part :: parts =>
    (if part.text = [] then [] else [((outputIndex, contentIndex), .text part.text)]) ++
      lateFills outputIndex (contentIndex + 1) parts

theorem Working.latePart (h : Working library content opens notes a tr)
    (hbelow : Below outputIndex contentIndex opens) (part : Part) :
    Reaches Dict a (tr.partDone (outputIndex, contentIndex) part) (Working library content
      (opens ++ if part.text = [] then [] else [((outputIndex, contentIndex), .text part.text)])
        (notes.refuse part.refuses)) := by
  have hnone : Working library content (opens ++ []) (notes.refuse false) a tr := by
    rwa [append_nil, Notes.refuse_false]
  rw [partDone.eq_def, if_neg (not_not.mpr (h.indexOf_none library hbelow.not_mem))]
  cases part with
  | outputText words =>
    cases words with
    | nil => exact .idle hnone
    | cons c words =>
      have hreach := h.firstText library hbelow (c :: words)
      rw [← notes.refuse_false] at hreach
      exact hreach
  | refusal words =>
    cases words with
    | nil => exact .idle hnone
    | cons c words =>
      have hnoted : Working library content opens _ a { tr with refused := true } :=
        h.note library rfl rfl rfl
      have hnotes : StreamTranslator.notes { tr with refused := true } =
          notes.refuse true := by
        rw [← h.notes, Notes.refuse, Bool.or_true]
        rfl
      rw [hnotes] at hnoted
      exact hnoted.firstText library hbelow (c :: words)
  | other => exact .idle hnone

theorem Below.late (h : Below outputIndex contentIndex opens) (part : Part) :
    Below outputIndex (contentIndex + 1)
      (opens ++ if part.text = [] then [] else [((outputIndex, contentIndex), .text part.text)]) := by
  split
  · rw [append_nil]
    exact h.succ
  · exact h.concat _

theorem Working.lateParts (h : Working library content opens notes a tr)
    (hbelow : Below outputIndex contentIndex opens) (parts : List Part) :
    Reaches Dict a (tr.partsDone outputIndex contentIndex parts) (Working library content
      (opens ++ lateFills outputIndex contentIndex parts)
        (notes.refuse (parts.any (·.refuses)))) := by
  induction parts generalizing opens notes contentIndex a tr with
  | nil =>
    refine .idle ?_
    rwa [lateFills, append_nil, any_nil, Notes.refuse_false]
  | cons part parts ih =>
    refine (h.latePart library hbelow part).next fun a' tr' h' => ?_
    have hrest := ih h' (hbelow.late part)
    rwa [append_assoc, Notes.refuse_refuse, ← any_cons] at hrest

/-! ### Reasoning -/

def Notes.pend (notes : Notes) (pending : Finset ℕ) : Notes :=
  { notes with pending := pending }

/-- A reasoning item that has said some text: its block is open once there is any. -/
def Thinking (content : List (Block Dict)) (notes : Notes) (outputIndex : ℕ) (text : Text)
    (a : Accumulator) (tr : StreamTranslator) : Prop :=
  (text = [] ∧ Working library content [] (notes.pend {outputIndex}) a tr) ∨
    text ≠ [] ∧ Working library content [((outputIndex, 0), .thinking text [])] (notes.pend ∅) a tr

theorem Working.startThinking (h : Working library content [] (notes.pend {outputIndex}) a tr) :
    Reaches Dict a ({ tr with pendingReasoning := tr.pendingReasoning.erase outputIndex }.start
        (outputIndex, 0) (.thinking [] []))
      (Working library content [((outputIndex, 0), .thinking [] [])] (notes.pend ∅)) := by
  have hpending : tr.pendingReasoning = {outputIndex} := congrArg Notes.pending h.notes
  have hnoted : Working library content [] _ a
      { tr with pendingReasoning := tr.pendingReasoning.erase outputIndex } :=
    h.note library rfl rfl rfl
  have hnotes : StreamTranslator.notes
      { tr with pendingReasoning := tr.pendingReasoning.erase outputIndex } = notes.pend ∅ := by
    have hrest := h.notes
    simp only [StreamTranslator.notes, Notes.pend, Notes.mk.injEq] at hrest ⊢
    refine ⟨?_, hrest.2⟩
    rw [hpending, Finset.erase_singleton]
  rw [hnotes] at hnoted
  exact hnoted.start library not_mem_nil rfl fun entry hmem => absurd hmem not_mem_nil

variable {text : Text}

theorem Thinking.delta (h : Thinking library content notes outputIndex text a tr) (more : Text) :
    Reaches Dict a (tr.thinkingDelta outputIndex more)
      (Thinking library content notes outputIndex (text ++ more)) := by
  rw [thinkingDelta]
  rcases h with ⟨rfl, h⟩ | ⟨htext, h⟩
  · have hnone := h.indexOf_none library (not_mem_nil (a := (outputIndex, 0)))
    have hpending : tr.pendingReasoning = {outputIndex} := congrArg Notes.pending h.notes
    cases more with
    | nil =>
      rw [if_pos ⟨hnone, .inr rfl⟩]
      exact .idle (.inl ⟨rfl, h⟩)
    | cons c more =>
      rw [if_neg (by simp [hpending]), if_pos hnone]
      refine (h.startThinking library).next fun a' tr' h' => ?_
      have hreach := h'.onlyDelta library
        (show (Fill.thinking [] []).add (.thinking (c :: more)) = some (.thinking (c :: more) [])
          from rfl)
      exact hreach.mono fun _ _ hworking => .inr ⟨cons_ne_nil _ _, hworking⟩
  · have hopen := h.indexOf_mem library (mem_singleton.mpr rfl)
    rw [if_neg fun hboth => hopen hboth.1, if_neg hopen]
    refine (Reaches.idle h).next fun a' tr' h' => ?_
    split
    · rename_i hempty
      rw [hempty, append_nil]
      exact .idle (.inr ⟨htext, h'⟩)
    · have hreach := h'.onlyDelta library
        (show (Fill.thinking text []).add (.thinking more) = some (.thinking (text ++ more) [])
          from rfl)
      exact hreach.mono fun _ _ hworking => .inr ⟨by simp [htext], hworking⟩

theorem Thinking.deltas (h : Thinking library content notes outputIndex text a tr)
    (deltas : List Text) :
    Arrives library name a tr (deltas.map (.reasoningSummaryTextDelta outputIndex))
      (Thinking library content notes outputIndex (text ++ deltas.flatten)) := by
  induction deltas generalizing text a tr with
  | nil =>
    rw [flatten_nil, append_nil]
    exact .nil library h
  | cons delta deltas ih =>
    refine .cons library (by rw [StreamTranslator.translate]) (h.delta library delta)
      fun a' tr' h' => ?_
    rw [flatten_cons, ← append_assoc]
    exact ih h'

/-- The summary parts from an index on, each but the first after a blank line. -/
def paragraphs (summaryIndex : ℕ) : List Text → Text
  | [] => []
  | text :: texts =>
    (if 0 < summaryIndex then ['\n', '\n'] else []) ++ text ++ paragraphs (summaryIndex + 1) texts

theorem joinParagraphs_cons (text next : Text) (texts : List Text) :
    joinParagraphs (text :: next :: texts) =
      text ++ '\n' :: '\n' :: joinParagraphs (next :: texts) := rfl

theorem paragraphs_succ (text : Text) (texts : List Text) (summaryIndex : ℕ) :
    paragraphs (summaryIndex + 1) (text :: texts) =
      '\n' :: '\n' :: joinParagraphs (text :: texts) := by
  induction texts generalizing text summaryIndex with
  | nil => simp [paragraphs, joinParagraphs]
  | cons next texts ih =>
    rw [paragraphs, if_pos (Nat.succ_pos summaryIndex), ih, joinParagraphs_cons]
    rfl

theorem joinParagraphs_eq (texts : List Text) : joinParagraphs texts = paragraphs 0 texts := by
  match texts with
  | [] => rfl
  | [text] => simp [paragraphs, joinParagraphs]
  | text :: next :: texts =>
    rw [joinParagraphs_cons, paragraphs, paragraphs_succ]
    simp

theorem Thinking.summary (h : Thinking library content notes outputIndex text a tr)
    (summaryIndex : ℕ) (summary : List (List Text)) :
    Arrives library name a tr (summaryEvents outputIndex summaryIndex summary)
      (Thinking library content notes outputIndex
        (text ++ paragraphs summaryIndex (summary.map List.flatten))) := by
  induction summary generalizing text summaryIndex a tr with
  | nil =>
    rw [map_nil, paragraphs, append_nil]
    exact .nil library h
  | cons deltas summary ih =>
    have hbreak : Reaches Dict a
        (if 0 < summaryIndex then tr.thinkingDelta outputIndex ['\n', '\n'] else ([], tr))
        (Thinking library content notes outputIndex
          (text ++ if 0 < summaryIndex then ['\n', '\n'] else [])) := by
      split
      · exact h.delta library _
      · rw [append_nil]
        exact .idle h
    rw [summaryEvents, cons_append]
    refine .cons library (by rw [StreamTranslator.translate]) hbreak fun a' tr' h' => ?_
    refine (h'.deltas library deltas).append library fun a'' tr'' h'' => ?_
    have hrest := ih h'' (summaryIndex + 1)
    rw [map_cons, paragraphs]
    simpa only [append_assoc] using hrest

theorem Working.stopNone (h : Working library content [] notes a tr) (picks : Key → Bool) :
    Reaches Dict a (tr.stop picks) (Working library content [] notes) := by
  have hreach : Reaches Dict a (tr.stop picks) _ :=
    h.stop library fun entry hmem => absurd hmem not_mem_nil
  rwa [map_nil, append_nil] at hreach

theorem Working.stopOnly (h : Working library content [((outputIndex, 0), fill)] notes a tr) :
    Reaches Dict a (tr.stop fun key => key.1 = outputIndex)
      (Working library (content ++ [fill.finish library]) [] notes) := by
  refine h.stop library fun entry hmem => ?_
  rw [mem_singleton.mp hmem]
  exact decide_eq_true rfl

theorem Working.unpend {pending : Finset ℕ}
    (h : Working library content opens (notes.pend pending) a tr)
    (hpending : pending.erase outputIndex = ∅) : Working library content opens (notes.pend ∅) a
      { tr with pendingReasoning := tr.pendingReasoning.erase outputIndex } := by
  have hnoted : Working library content opens _ a
      { tr with pendingReasoning := tr.pendingReasoning.erase outputIndex } :=
    h.note library rfl rfl rfl
  have hold : tr.pendingReasoning = pending := congrArg Notes.pending h.notes
  have hnotes : StreamTranslator.notes
      { tr with pendingReasoning := tr.pendingReasoning.erase outputIndex } = notes.pend ∅ := by
    have hrest := h.notes
    simp only [StreamTranslator.notes, Notes.pend, Notes.mk.injEq] at hrest ⊢
    refine ⟨?_, hrest.2⟩
    rw [hold, hpending]
  rwa [hnotes] at hnoted

/-- A reasoning item is done: its signature comes last, in a block of its own if it said nothing. -/
theorem Thinking.done (h : Thinking library content notes outputIndex text a tr)
    (id : Text) (summary : List Text) (encryptedContent : Option Text) : Reaches Dict a
      (tr.itemDone library name outputIndex (.reasoning id summary encryptedContent))
      (Working library (content ++
        if text ≠ [] ∨ signatureOf library name encryptedContent ≠ [] then
          [.thinking text (signatureOf library name encryptedContent)] else [])
        [] (notes.pend ∅)) := by
  have hplain : Reaches Dict a (StreamTranslator.next
        (([], { tr with pendingReasoning := tr.pendingReasoning.erase outputIndex }) :
          List (MessageEvent Dict) × StreamTranslator)
        fun tr => tr.stop fun key => key.1 = outputIndex)
      (Working library (content ++ if text ≠ [] ∨ ([] : Text) ≠ [] then [.thinking text []] else [])
        [] (notes.pend ∅)) := by
    rcases h with ⟨rfl, h⟩ | ⟨htext, h⟩
    · rw [if_neg (by simp), append_nil]
      exact (Reaches.idle (h.unpend library (Finset.erase_singleton outputIndex))).next
        fun a' tr' h' => h'.stopNone library _
    · rw [if_pos (.inl htext)]
      exact (Reaches.idle (h.unpend library (Finset.erase_empty outputIndex))).next
        fun a' tr' h' => h'.stopOnly library
  match encryptedContent with
  | none => exact hplain
  | some [] => exact hplain
  | some (c :: encrypted) =>
    have hsigned : signatureOf library name (some (c :: encrypted)) =
        reasoningSignature library name (c :: encrypted) := rfl
    have hne : reasoningSignature library name (c :: encrypted) ≠ [] := by
      simp [reasoningSignature]
    rw [hsigned, if_pos (.inr hne)]
    have hopened : Reaches Dict a (if outputIndex ∈ tr.pendingReasoning then
          { tr with pendingReasoning := tr.pendingReasoning.erase outputIndex }.start
            (outputIndex, 0) (.thinking [] [])
        else ([], tr))
        (Working library content [((outputIndex, 0), .thinking text [])] (notes.pend ∅)) := by
      rcases h with ⟨rfl, h⟩ | ⟨htext, h⟩
      · have hpending : tr.pendingReasoning = {outputIndex} := congrArg Notes.pending h.notes
        rw [if_pos (by rw [hpending]; exact Finset.mem_singleton_self _)]
        exact h.startThinking library
      · have hpending : tr.pendingReasoning = ∅ := congrArg Notes.pending h.notes
        rw [if_neg (by rw [hpending]; exact Finset.notMem_empty _)]
        exact .idle h
    have hdone : Reaches Dict a
        (tr.reasoningDone library name outputIndex (some (c :: encrypted)))
        (Working library content [((outputIndex, 0),
          .thinking text (reasoningSignature library name (c :: encrypted)))] (notes.pend ∅)) :=
      Reaches.next (f := fun tr => (tr.delta (outputIndex, 0)
        (.signature (reasoningSignature library name (c :: encrypted))), tr)) hopened
        fun a' tr' h' => h'.onlyDelta library rfl
    exact hdone.next fun a' tr' h' => h'.stopOnly library

/-! ### Calls -/

theorem Working.argumentDeltas {callId tool json : Text}
    (h : Working library content [((outputIndex, 0), .toolUse callId tool json)] notes a tr)
    (deltas : List Text) :
    Arrives library name a tr (deltas.map (.functionCallArgumentsDelta outputIndex))
      (Working library content [((outputIndex, 0), .toolUse callId tool (json ++ deltas.flatten))]
        { notes with arguments :=
            if deltas = [] then notes.arguments else insert outputIndex notes.arguments }) := by
  induction deltas generalizing json notes a tr with
  | nil =>
    rw [flatten_nil, append_nil]
    exact .nil library h
  | cons delta deltas ih =>
    have hopen := h.indexOf_mem library (mem_singleton.mpr rfl)
    have honly : Working library content
        ([] ++ [((outputIndex, 0), .toolUse callId tool json)]) notes a tr := h
    have hreach : Reaches Dict a (tr.delta (outputIndex, 0) (.inputJson delta),
        { tr with argumentsStreamed := insert outputIndex tr.argumentsStreamed }) _ :=
      honly.delta library not_mem_nil rfl rfl rfl rfl
    have hnotes : StreamTranslator.notes
        { tr with argumentsStreamed := insert outputIndex tr.argumentsStreamed } =
          { notes with arguments := insert outputIndex notes.arguments } := by
      rw [← h.notes]
      rfl
    rw [hnotes] at hreach
    refine .cons library (by rw [StreamTranslator.translate, if_neg hopen]) hreach
      fun a' tr' h' => ?_
    have hrest := ih h'
    rw [append_assoc, ← flatten_cons] at hrest
    refine hrest.mono library fun a'' tr'' h'' => ?_
    rw [if_neg (cons_ne_nil _ _)]
    split at h''
    · exact h''
    · rwa [Finset.insert_idem] at h''

theorem Working.callDone {callId tool json : Text}
    (h : Working library content [((outputIndex, 0), .toolUse callId tool json)] notes a tr)
    (late : Text) (hjson : outputIndex ∉ notes.arguments → json = []) :
    Reaches Dict a (tr.itemDone library name outputIndex (.functionCall callId tool late))
      (Working library (content ++ [.toolUse callId tool (toolInput library
        (if outputIndex ∈ notes.arguments then json else late))]) [] notes) := by
  have harguments : tr.argumentsStreamed = notes.arguments := congrArg Notes.arguments h.notes
  have hfilled : Reaches Dict a
      (tr.contentDone library name outputIndex (.functionCall callId tool late))
      (Working library content [((outputIndex, 0), .toolUse callId tool
        (if outputIndex ∈ notes.arguments then json else late))] notes) := by
    rw [contentDone, harguments]
    by_cases hstreamed : outputIndex ∈ notes.arguments
    · rw [if_neg (fun hboth => hboth.1 hstreamed), if_pos hstreamed]
      exact .idle h
    · obtain rfl := hjson hstreamed
      rw [if_neg hstreamed]
      by_cases hlate : late = []
      · rw [if_neg (fun hboth => hboth.2 hlate), hlate]
        exact .idle h
      · rw [if_pos ⟨hstreamed, hlate⟩]
        exact h.onlyDelta library rfl
  exact hfilled.next fun a' tr' h' => h'.stopOnly library

/-! ### Items -/

def Rests (content : List (Block Dict)) (called refused : Bool) (outputIndex : ℕ)
    (a : Accumulator) (tr : StreamTranslator) : Prop :=
  ∃ arguments : Finset ℕ, (∀ index ∈ arguments, index < outputIndex) ∧
    Working library content [] ⟨∅, arguments, called, refused⟩ a tr

theorem partFills_keys (parts : List StreamedPart) :
    ∀ entry ∈ partFills outputIndex contentIndex parts, entry.1.1 = outputIndex := by
  induction parts generalizing contentIndex with
  | nil => exact fun entry hmem => absurd hmem not_mem_nil
  | cons part parts ih =>
    intro entry hmem
    rcases mem_append.mp hmem with hfirst | hrest
    · rw [StreamedPart.fills] at hfirst
      split at hfirst
      · cases hfirst
      · rw [mem_singleton.mp hfirst]
    · exact ih entry hrest

theorem lateFills_keys (parts : List Part) :
    ∀ entry ∈ lateFills outputIndex contentIndex parts, entry.1.1 = outputIndex := by
  induction parts generalizing contentIndex with
  | nil => exact fun entry hmem => absurd hmem not_mem_nil
  | cons part parts ih =>
    intro entry hmem
    rcases mem_append.mp hmem with hfirst | hrest
    · split at hfirst
      · cases hfirst
      · rw [mem_singleton.mp hfirst]
    · exact ih entry hrest

theorem itemBlocks_cons (part : Part) (parts : List Part) :
    itemBlocks library name (.message (part :: parts)) =
      itemBlocks library name (.message [part]) ++ itemBlocks library name (.message parts) := by
  rw [itemBlocks, itemBlocks, itemBlocks, flatMap_cons, flatMap_cons, flatMap_nil,
    append_nil]

theorem partFills_blocks (name : Text) (parts : List StreamedPart) :
    (partFills outputIndex contentIndex parts).map (·.2.finish library) =
      itemBlocks library name (StreamedItem.message parts).shown := by
  induction parts generalizing contentIndex with
  | nil => rfl
  | cons part parts ih =>
    have hrest := @ih (contentIndex + 1)
    rw [StreamedItem.shown] at hrest
    rw [partFills, map_append, hrest, StreamedPart.fills, StreamedItem.shown,
      filter_cons]
    by_cases hdeltas : part.deltas = []
    · simp [hdeltas]
    · rw [if_neg hdeltas, if_pos (by simpa using hdeltas), map_cons (f := StreamedPart.part),
        itemBlocks_cons]
      cases part with
      | outputText deltas => rfl
      | refusal deltas => rfl
      | other => exact absurd rfl hdeltas

theorem lateFills_blocks (name : Text) (parts : List Part) :
    (lateFills outputIndex contentIndex parts).map (·.2.finish library) =
      itemBlocks library name (StreamedItem.lateMessage parts).shown := by
  induction parts generalizing contentIndex with
  | nil => rfl
  | cons part parts ih =>
    have hrest := @ih (contentIndex + 1)
    rw [StreamedItem.shown] at hrest
    rw [lateFills, map_append, hrest, StreamedItem.shown, filter_cons]
    by_cases htext : part.text = []
    · simp [htext]
    · rw [if_neg htext, if_pos (by simpa using htext), itemBlocks_cons]
      cases part with
      | outputText words => rfl
      | refusal words => rfl
      | other => exact absurd rfl htext

theorem parts_refuse (parts : List StreamedPart) :
    (StreamedItem.message parts).shown.refuses = parts.any (·.refuses) := by
  induction parts with
  | nil => rfl
  | cons part parts ih =>
    rw [StreamedItem.shown, OutputItem.refuses] at ih ⊢
    rw [filter_cons, any_cons]
    cases part with
    | outputText deltas =>
      cases deltas <;> simpa [StreamedPart.deltas, StreamedPart.refuses, StreamedPart.part] using ih
    | refusal deltas =>
      cases deltas with
      | nil => exact ih
      | cons delta deltas =>
        simp [StreamedPart.deltas, StreamedPart.refuses, StreamedPart.part]
    | other => exact ih

theorem lateParts_refuse (parts : List Part) :
    (StreamedItem.lateMessage parts).shown.refuses = parts.any (·.refuses) := by
  induction parts with
  | nil => rfl
  | cons part parts ih =>
    rw [StreamedItem.shown, OutputItem.refuses] at ih ⊢
    rw [filter_cons, any_cons]
    cases part with
    | outputText words => cases words <;> simpa [Part.text, Part.refuses] using ih
    | refusal words =>
      cases words with
      | nil => exact ih
      | cons c words => simp [Part.text, Part.refuses]
    | other => exact ih

variable {called refused : Bool}

/-- **One item**: its blocks, as they are in the whole response. -/
theorem Rests.item (h : Rests library content called refused outputIndex a tr)
    (item : StreamedItem) : Arrives library name a tr (.outputItemAdded outputIndex item.added ::
        (item.filling outputIndex ++ [.outputItemDone outputIndex item.item]))
      (Rests library (content ++ itemBlocks library name item.shown)
        (called || item.shown.isCall) (refused || item.shown.refuses) (outputIndex + 1)) := by
  obtain ⟨arguments, hbefore, hworking⟩ := h
  have hkept : ∀ index ∈ arguments, index < outputIndex + 1 :=
    fun index hmem => Nat.lt_succ_of_lt (hbefore index hmem)
  have hbelow : Below outputIndex 0 ([] : List (Key × Fill)) :=
    ⟨fun entry hmem => absurd hmem not_mem_nil,
      fun entry hmem => absurd hmem not_mem_nil⟩
  -- an item of any kind ends with its done event, so each case stops before it
  have hdone : ∀ {P Q : Accumulator → StreamTranslator → Prop} {a : Accumulator}
      {tr : StreamTranslator} {events : List Event},
      Arrives library name a tr events P →
      (∀ a tr, P a tr → Reaches Dict a (tr.itemDone library name outputIndex item.item) Q) →
      Arrives library name a tr (events ++ [.outputItemDone outputIndex item.item]) Q :=
    fun hfilled hlast => hfilled.append library fun a tr hP =>
      .cons library (by rw [StreamTranslator.translate]) (hlast a tr hP) fun a tr hQ => .nil library hQ
  cases item with
  | reasoning id summary encryptedContent =>
    have hpending : Thinking library content ⟨∅, arguments, called, refused⟩ outputIndex [] a
        { tr with pendingReasoning := insert outputIndex tr.pendingReasoning } := by
      have hnoted : Working library content [] _ a
          { tr with pendingReasoning := insert outputIndex tr.pendingReasoning } :=
        hworking.note library rfl rfl rfl
      have hnotes := hworking.notes
      simp only [StreamTranslator.notes, Notes.mk.injEq] at hnotes
      refine .inl ⟨rfl, ?_⟩
      simpa [StreamTranslator.notes, Notes.pend, hnotes] using hnoted
    refine .cons library rfl (.idle hpending) fun a tr h => ?_
    refine hdone (h.summary library 0 summary) fun a tr h => ?_
    refine (h.done library id (summary.map List.flatten) encryptedContent).mono
      fun a tr h => ⟨arguments, hkept, ?_⟩
    simpa [StreamedItem.shown, StreamedItem.item, itemBlocks, joinParagraphs_eq, Notes.pend,
      OutputItem.isCall, OutputItem.refuses] using h
  | message parts =>
    refine .cons library rfl (.idle hworking) fun a tr h => ?_
    refine hdone (h.parts library hbelow parts) fun a tr h => ?_
    have hidle : tr.partsDone outputIndex 0 (parts.map (·.part)) =
        (([], tr) : List (MessageEvent Dict) × StreamTranslator) :=
      partsDone_idle parts fun key hmem => h.indexOf_mem library hmem
    rw [StreamedItem.item, itemDone, contentDone, hidle]
    refine (Reaches.idle h).next fun a tr h => ?_
    refine (h.stop library fun entry hmem =>
      decide_eq_true (partFills_keys parts entry hmem)).mono fun a tr h => ⟨arguments, hkept, ?_⟩
    rw [nil_append, partFills_blocks library name, Notes.refuse,
      ← parts_refuse] at h
    simpa [StreamedItem.shown, OutputItem.isCall] using h
  | lateMessage parts =>
    refine .cons library rfl (.idle hworking) fun a tr h => ?_
    refine hdone (.nil library h) fun a tr h => ?_
    rw [StreamedItem.item, itemDone, contentDone]
    refine (h.lateParts library hbelow parts).next fun a tr h => ?_
    refine (h.stop library fun entry hmem =>
      decide_eq_true (lateFills_keys parts entry hmem)).mono fun a tr h => ⟨arguments, hkept, ?_⟩
    rw [nil_append, lateFills_blocks library name, Notes.refuse,
      ← lateParts_refuse] at h
    simpa [StreamedItem.shown, OutputItem.isCall] using h
  | functionCall callId tool deltas late =>
    have hnew : outputIndex ∉ arguments := fun hmem => lt_irrefl _ (hbefore outputIndex hmem)
    have hcalled : Working library content [] ⟨∅, arguments, true, refused⟩ a
        { tr with toolCalled := true } := by
      have hnoted : Working library content [] _ a { tr with toolCalled := true } :=
        hworking.note library rfl rfl rfl
      have hnotes := hworking.notes
      simp only [StreamTranslator.notes, Notes.mk.injEq] at hnotes
      simpa [StreamTranslator.notes, hnotes] using hnoted
    refine .cons library rfl (hcalled.start library not_mem_nil rfl
      fun entry hmem => absurd hmem not_mem_nil) fun a tr h => ?_
    refine hdone (Working.argumentDeltas library h deltas) fun a tr h => ?_
    refine (h.callDone library _ ?_).mono fun a tr h =>
      ⟨if deltas = [] then arguments else insert outputIndex arguments, ?_, ?_⟩
    · intro hmem
      by_cases hdeltas : deltas = []
      · simp [hdeltas]
      · simp [hdeltas] at hmem
    · intro index hmem
      split at hmem
      · exact hkept index hmem
      · rcases Finset.mem_insert.mp hmem with rfl | hold
        · exact Nat.lt_succ_self _
        · exact hkept index hold
    · by_cases hdeltas : deltas = []
      · simpa [hdeltas, hnew, StreamedItem.shown, StreamedItem.item, itemBlocks,
          OutputItem.isCall, OutputItem.refuses] using h
      · simpa [hdeltas, StreamedItem.shown, StreamedItem.item, itemBlocks,
          OutputItem.isCall, OutputItem.refuses] using h
  | other =>
    refine .cons library rfl (.idle hworking) fun a tr h => ?_
    refine hdone (.nil library h) fun a tr h => ?_
    have hstopped : Reaches Dict a (tr.itemDone library name outputIndex .other) _ :=
      (Reaches.idle h).next fun a tr h => h.stopNone library _
    refine hstopped.mono fun a tr h => ⟨arguments, hkept, ?_⟩
    simpa [StreamedItem.shown, StreamedItem.item, itemBlocks, OutputItem.isCall,
      OutputItem.refuses] using h

theorem Rests.items (h : Rests library content called refused outputIndex a tr)
    (items : List StreamedItem) : Arrives library name a tr (itemEvents outputIndex items)
      (Rests library (content ++ (items.map (·.shown)).flatMap (itemBlocks library name))
        (called || (items.map (·.shown)).any (·.isCall))
        (refused || (items.map (·.shown)).any (·.refuses)) (outputIndex + items.length)) := by
  induction items generalizing content called refused outputIndex a tr with
  | nil =>
    refine .nil library ?_
    simpa using h
  | cons item items ih =>
    have hsplit : itemEvents outputIndex (item :: items) =
        .outputItemAdded outputIndex item.added ::
          (item.filling outputIndex ++ [.outputItemDone outputIndex item.item]) ++
            itemEvents (outputIndex + 1) items := by
      rw [itemEvents]
      simp
    rw [hsplit]
    refine (h.item library item).append library fun a tr h => ?_
    have hrest := ih h
    simpa only [map_cons, flatMap_cons, any_cons, append_assoc, Bool.or_assoc,
      length_cons, Nat.add_assoc, Nat.add_comm 1] using hrest

/-! ### The start and the end -/

theorem started_rests (first : Response) (again : List Response) :
    Arrives library name {} {} (.created first :: again.map .inProgress)
      (Rests library [] false false 0) := by
  have hstarted : Working library [] [] ⟨∅, ∅, false, false⟩
      { head := some (messageId first, first.model) } { started := true } :=
    { blocks := ⟨[], rfl, rfl, rfl, rfl⟩
      notes := rfl
      head := rfl
      ending := rfl
      stopped := rfl
      started := rfl }
  refine .cons library rfl ⟨_, rfl, hstarted⟩ ?_
  induction again with
  | nil =>
    intro a tr h
    exact .nil library ⟨∅, fun index hmem => absurd hmem (Finset.notMem_empty index), h⟩
  | cons response again ih =>
    intro a tr h
    refine .cons library rfl ?_ ih
    rw [if_pos h.started]
    exact .idle h

theorem Rests.finish (h : Rests library content called refused outputIndex a tr)
    (response : Response) :
    Reaches Dict a (tr.finish response) fun a _ => ∃ message, a.message library = some message ∧
      message.content = content ∧ message.stopReason = stopReason response called refused ∧
      message.usage = messageUsage response.usage := by
  obtain ⟨arguments, -, h⟩ := h
  rw [StreamTranslator.finish, if_pos h.started]
  refine ((Reaches.idle h).next fun a tr h => h.stopNone library _).next fun a tr h => ?_
  obtain ⟨done, hdone, hblocks, -, -⟩ := h.blocks
  have hclosed : a.blocks.all (!·.opened) = true := by
    rw [hblocks, map_nil, append_nil, all_map]
    exact all_eq_true.mpr fun _ _ => rfl
  have hcalled : tr.toolCalled = called := congrArg Notes.called h.notes
  have hrefused : tr.refused = refused := congrArg Notes.refused h.notes
  obtain ⟨head, hhead⟩ := isSome_iff_exists.mp h.head
  refine ⟨{ a with
    ending := some (stopReason response tr.toolCalled tr.refused, messageUsage response.usage)
    stopped := true }, ?_, ⟨head.1, head.2, content, stopReason response called refused,
      messageUsage response.usage⟩, ?_, rfl, rfl, rfl⟩
  · simp only [Accumulator.acceptAll, Accumulator.accept, h.head, h.ending, hclosed, and_self,
      if_true, bind_some, isSome_some, h.stopped]
  · have hcontent : a.blocks.map (fun slot => slot.fill.finish library) = content := by
      rw [hblocks, map_nil, append_nil, map_map]
      exact hdone
    simp only [Accumulator.message, hhead, hcalled, hrefused, hcontent]

/-! ### Whole streams -/

theorem streamEvents_of_ok
    (h : tr.translateAll library name events = .ok step) (more : List Event) :
    tr.streamEvents library name (events ++ more) =
      (step.1 ++ (step.2.streamEvents library name more).1,
        (step.2.streamEvents library name more).2) := by
  induction events generalizing tr step with
  | nil =>
    cases h
    rfl
  | cons event events ih =>
    rw [translateAll] at h
    cases hfirst : tr.translate library name event with
    | error code =>
      rw [hfirst] at h
      cases h
    | ok first =>
      rw [hfirst] at h
      cases hafter : first.2.translateAll library name events with
      | error code =>
        simp only [Except.bind, hafter, Except.map] at h
        cases h
      | ok after =>
        simp only [Except.bind, hafter, Except.map] at h
        cases h
        rw [cons_append, streamEvents, hfirst]
        simp only [ih hafter, append_assoc]

theorem streamEvents_filter (tr : StreamTranslator) (events : List Event) :
    tr.streamEvents library name (events.filter (!·.isOther)) =
      tr.streamEvents library name events := by
  induction events generalizing tr with
  | nil => rfl
  | cons event events ih =>
    by_cases hother : event = .other
    · subst hother
      exact ih tr
    · have hkeep : (!event.isOther) = true := by
        cases event with
        | other => exact absurd rfl hother
        | _ => rfl
      rw [filter_cons, if_pos hkeep, streamEvents, streamEvents]
      simp only [ih]

theorem accept_ending {event : MessageEvent Dict} {a a' : Accumulator}
    (h : a.accept event = some a') (hending : a'.ending = none) : a.ending = none := by
  cases event with
  | messageStart id model =>
    rw [Accumulator.accept] at h
    split at h
    · cases h
      exact hending
    · cases h
  | contentBlockStart index block =>
    obtain ⟨fill, -, h⟩ := bind_eq_some_iff.mp h
    split at h
    · cases h
      exact hending
    · cases h
  | contentBlockDelta index delta =>
    obtain ⟨slot, -, h⟩ := bind_eq_some_iff.mp h
    split at h
    · obtain ⟨fill, -, rfl⟩ := map_eq_some_iff.mp h
      exact hending
    · cases h
  | contentBlockStop index =>
    obtain ⟨slot, -, h⟩ := bind_eq_some_iff.mp h
    split at h
    · cases h
      exact hending
    · cases h
  | messageDelta stopReason usage =>
    rw [Accumulator.accept] at h
    split at h
    · cases h
      cases hending
    · cases h
  | messageStop =>
    rw [Accumulator.accept] at h
    split at h
    · cases h
      exact hending
    · cases h

theorem acceptAll_ending {events : List (MessageEvent Dict)} {a a' : Accumulator}
    (h : a.acceptAll events = some a') (hending : a'.ending = none) : a.ending = none := by
  induction events generalizing a with
  | nil =>
    cases h
    exact hending
  | cons event events ih =>
    obtain ⟨next, hfirst, hrest⟩ := bind_eq_some_iff.mp h
    exact accept_ending hfirst (ih hrest)

theorem translateAll_take {more : List Event}
    (h : tr.translateAll library name (events ++ more) = .ok step) :
    ∃ first rest, tr.translateAll library name events = .ok first ∧ step.1 = first.1 ++ rest := by
  induction events generalizing tr step with
  | nil => exact ⟨([], tr), step.1, rfl, rfl⟩
  | cons event events ih =>
    rw [cons_append, translateAll] at h
    cases hfirst : tr.translate library name event with
    | error code =>
      rw [hfirst] at h
      cases h
    | ok first =>
      rw [hfirst] at h
      cases hafter : first.2.translateAll library name (events ++ more) with
      | error code =>
        simp only [Except.bind, hafter, Except.map] at h
        cases h
      | ok after =>
        simp only [Except.bind, hafter, Except.map] at h
        cases h
        obtain ⟨step, rest, hstep, heq⟩ := ih hafter
        refine ⟨(first.1 ++ step.1, step.2), rest, ?_, ?_⟩
        · rw [translateAll, hfirst]
          simp only [Except.bind, hstep, Except.map]
        · simp only [heq, append_assoc]

def Event.isTerminal : Event → Bool
  | .completed _ | .incomplete _ => true
  | _ => false

theorem Streams.rests {items : List StreamedItem} {response : Response}
    (h : Streams events items response) (name : Text) : ∃ body last,
      events.filter (!·.isOther) = body ++ [last] ∧
      (last = .completed response ∨ last = .incomplete response) ∧
      Arrives library name {} {} body (Rests library
        ((items.map (·.shown)).flatMap (itemBlocks library name))
        ((items.map (·.shown)).any (·.isCall)) ((items.map (·.shown)).any (·.refuses))
        (0 + items.length)) := by
  obtain ⟨first, again, last, heq, hlast⟩ := h.events
  refine ⟨.created first :: again.map .inProgress ++ itemEvents 0 items, last, ?_, hlast, ?_⟩
  · rw [heq, append_assoc]
  · refine (started_rests library first again).append library fun a tr h => ?_
    have hitems : Arrives library name a tr (itemEvents 0 items) _ := h.items library items
    simpa only [nil_append, Bool.false_or] using hitems

theorem filter_before {before after body : List Event} {last : Event}
    (heq : (before ++ after).filter (!·.isOther) = body ++ [last]) (hlast : last.isTerminal = true)
    (hbefore : ∀ event ∈ before, event.isTerminal = false) :
    ∃ rest, body = before.filter (!·.isOther) ++ rest := by
  rw [filter_append] at heq
  rcases eq_nil_or_concat (after.filter (!·.isOther)) with hnil | ⟨rest, event, hconcat⟩
  · rw [hnil, append_nil] at heq
    have hmem : last ∈ before.filter (!·.isOther) := by
      rw [heq]
      exact mem_append_right _ (mem_singleton.mpr rfl)
    rw [hbefore last (mem_of_mem_filter hmem)] at hlast
    cases hlast
  · rw [hconcat, concat_eq_append, ← append_assoc] at heq
    exact ⟨rest, (append_inj_left' heq rfl).symm⟩

/-- **A well-formed Responses stream in Messages events**: a client accepts them, and puts them
together to the content, the stop reason and the usage of the whole response's translation, less the
content parts that are empty and had no delta.  A stream that fails before its end raises, after
events that a client accepts and that do not end the message. -/
theorem stream_accumulates {events : List Event} {items : List StreamedItem} {response : Response}
    (h : Streams events items response) (name : Text) :
    (∃ out message, streamEvents library {} name events = (out, none) ∧
      accumulate library out = some message ∧ message.content = (messageFromResponse library name
        { response with output := items.map (·.shown) }).content ∧
      message.stopReason = (messageFromResponse library name
        { response with output := items.map (·.shown) }).stopReason ∧
      message.usage = (messageFromResponse library name
        { response with output := items.map (·.shown) }).usage) ∧
    ∀ before after code, events = before ++ after →
      (∀ event ∈ before, event.isTerminal = false) → ∃ out a,
        streamEvents library {} name (before ++ [.failed code]) = (out, some code) ∧
        Accumulator.acceptAll {} out = some a ∧ a.ending = none := by
  obtain ⟨body, last, heq, hlast, step, hbody, a, haccept, hrests⟩ := h.rests library name
  constructor
  · have htranslated : step.2.translate library name last = .ok (step.2.finish response) := by
      rcases hlast with rfl | rfl <;> rfl
    obtain ⟨a', haccept', message, hmessage, hcontent, hstop, husage⟩ :=
      hrests.finish library response
    refine ⟨step.1 ++ (step.2.finish response).1, message, ?_, ?_, hcontent, hstop, husage⟩
    · rw [← streamEvents_filter, heq, streamEvents_of_ok library hbody, streamEvents, htranslated]
      simp only [streamEvents, List.append_nil]
    · rw [accumulate, acceptAll_append, haccept, Option.bind_some, haccept', Option.bind_some,
        hmessage]
  · intro before after code hsplit hbefore
    have hterminal : last.isTerminal = true := by
      rcases hlast with rfl | rfl <;> rfl
    rw [hsplit] at heq
    obtain ⟨rest, rfl⟩ := filter_before heq hterminal hbefore
    obtain ⟨first, more, hfirst, hout⟩ := translateAll_take library hbody
    rw [hout, acceptAll_append] at haccept
    obtain ⟨a', haccepted, hmore⟩ := Option.bind_eq_some_iff.mp haccept
    refine ⟨first.1, a', ?_, haccepted, acceptAll_ending hmore ?_⟩
    · rw [← streamEvents_filter, List.filter_append, streamEvents_of_ok library hfirst]
      simp [Event.isOther, streamEvents, StreamTranslator.translate]
    · obtain ⟨arguments, -, hworking⟩ := hrests
      exact hworking.ending

end

def messageStream (filling : List Event) (content : List Part) : List Event :=
  .created (sampleResponse []) :: .outputItemAdded 0 (.message []) :: filling ++
    [.outputItemDone 0 (.message content), .completed (sampleResponse [.message content])]

def twoParts : List Event :=
  messageStream [.outputTextDelta 0 0 ['a'], .outputTextDelta 0 1 ['b']]
    [.outputText ['a'], .outputText ['b']]

theorem twoParts_streams : Streams twoParts [.message [.outputText [['a']], .outputText [['b']]]]
    (sampleResponse [.message [.outputText ['a'], .outputText ['b']]]) :=
  ⟨rfl, sampleResponse [], [], _, rfl, .inl rfl⟩

theorem two_parts_accumulate : ∃ out message,
    streamEvents sampleLibrary {} ['i'] twoParts = (out, none) ∧
      accumulate sampleLibrary out = some message ∧
      message.content = [.text ['a'], .text ['b']] := by
  obtain ⟨⟨out, message, hout, hmessage, hcontent, -, -⟩, -⟩ :=
    stream_accumulates sampleLibrary twoParts_streams ['i']
  exact ⟨out, message, hout, hmessage, hcontent⟩

/-- The blocks of two parts are open at once; a part that is empty and had no delta leaves no block,
where the whole response has an empty one; and a failed stream has neither end event. -/
theorem two_parts_overlap : (Streams twoParts [.message [.outputText [['a']], .outputText [['b']]]]
        (sampleResponse [.message [.outputText ['a'], .outputText ['b']]]) ∧
      streamEvents sampleLibrary {} ['i'] twoParts =
        ([.messageStart (some ['m', 's', 'g', '_', 'r']) ['m'],
          .contentBlockStart 0 (.text []), .contentBlockDelta 0 (.text ['a']),
          .contentBlockStart 1 (.text []), .contentBlockDelta 1 (.text ['b']),
          .contentBlockStop 0, .contentBlockStop 1,
          .messageDelta .endTurn none, .messageStop], none)) ∧
    (Streams (messageStream [] [.outputText []]) [.message [.outputText []]]
        (sampleResponse [.message [.outputText []]]) ∧ (accumulate sampleLibrary
          (streamEvents sampleLibrary {} ['i'] (messageStream [] [.outputText []])).1).map
            (·.content) = some [] ∧ (messageFromResponse sampleLibrary ['i']
        (sampleResponse [.message [.outputText []]])).content = [.text []]) ∧
    streamEvents sampleLibrary {} ['i'] [.created (sampleResponse []), .failed none] =
      ([.messageStart (some ['m', 's', 'g', '_', 'r']) ['m']], some none) :=
  ⟨⟨⟨rfl, sampleResponse [], [], _, rfl, .inl rfl⟩, rfl⟩,
    ⟨⟨rfl, sampleResponse [], [], _, rfl, .inl rfl⟩, rfl, rfl⟩, rfl⟩

end Otari.Messages

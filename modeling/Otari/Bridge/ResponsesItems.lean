import Otari.Bridge.ResponsesCheck

/-!
# Bridge — ResponsesItems — what the check says of the text and the reasoning item

The translator keeps one text buffer and one reasoning buffer for the whole stream, so an item may
hold text of an earlier one: `Sees` says how much.  Closing an item passes exactly where it is none
(`closeReasoning_passes`, `closeReasoning_none`).
-/

namespace Otari.Bridge
open StreamTranslator

/-! ### The translator's open items -/

def openCalls (calls : List (ℤ × ToolCallState)) : List (ℕ × Slot) :=
  calls.filterMap fun entry => entry.2.outputIndex.map fun index =>
    (index, ⟨entry.2.itemId, .functionCall, entry.2.arguments, none⟩)

def StreamTranslator.reasoningSlots (tr : StreamTranslator) (r : ℕ) : List (ℕ × Slot) :=
  tr.reasoning.toList.map fun entry =>
    (entry.1, ⟨entry.2, .reasoning, tr.reasoningText.drop r, none⟩)

def StreamTranslator.textSlots (tr : StreamTranslator) (t : ℕ) : List (ℕ × Slot) :=
  tr.text.toList.map fun entry => (entry.1, ⟨entry.2, .message, tr.textValue.drop t, none⟩)

/-- The items the translator holds open.  The first `r` and `t` characters of the buffers are of
earlier items. -/
def StreamTranslator.opens (tr : StreamTranslator) (r t : ℕ) (calls : List (ℤ × ToolCallState)) :
    List (ℕ × Slot) :=
  tr.reasoningSlots r ++ (tr.textSlots t ++ openCalls calls)

/-- The check is where the translator is. -/
structure Sees (r t : ℕ) (calls : List (ℤ × ToolCallState)) (tr : StreamTranslator)
    (c : Checker) : Prop where
  sequence : c.sequence = tr.sequence
  running : c.finished = false
  reasoning : r ≤ tr.reasoningText.length
  text : t ≤ tr.textValue.length
  tracks : Tracks (tr.opens r t calls) tr.output c.slots

variable {r t : ℕ} {calls : List (ℤ × ToolCallState)} {tr : StreamTranslator} {c : Checker}

theorem Sees.spent_reasoning (h : Sees r t calls tr c) (hnone : tr.reasoning = none) :
    Sees tr.reasoningText.length t calls tr c where
  sequence := h.sequence
  running := h.running
  reasoning := le_rfl
  text := h.text
  tracks := by
    have htracks := h.tracks
    rw [opens, reasoningSlots, hnone] at htracks ⊢
    exact htracks

theorem Sees.spent_text (h : Sees r t calls tr c) (hnone : tr.text = none) :
    Sees r tr.textValue.length calls tr c where
  sequence := h.sequence
  running := h.running
  reasoning := h.reasoning
  text := le_rfl
  tracks := by
    have htracks := h.tracks
    rw [opens, textSlots, hnone] at htracks ⊢
    exact htracks

theorem Sees.settled (h : Sees r t calls tr c) (hr : tr.reasoning = none) (ht : tr.text = none) :
    Settled c.slots := by
  intro slot hmem
  obtain ⟨i, hi⟩ := List.mem_iff_getElem?.mp hmem
  have htracks := h.tracks
  rw [opens, reasoningSlots, textSlots, hr, ht] at htracks
  by_cases hopen : i ∈ (openCalls calls).map Prod.fst
  · obtain ⟨entry, hentry, rfl⟩ := List.mem_map.mp hopen
    have hslot := (htracks.opened entry hentry).1
    rw [hi] at hslot
    obtain ⟨call, -, hcall⟩ := List.mem_filterMap.mp hentry
    obtain ⟨index, -, heq⟩ := Option.map_eq_some_iff.mp hcall
    left
    rw [Option.some.inj hslot, ← heq]
  · have hclosed := htracks.closed i hopen
    rw [hi] at hclosed
    obtain ⟨item, -, heq⟩ := Option.map_eq_some_iff.mp hclosed.symm
    right
    rw [← heq]
    rfl

theorem Sees.not_settled (h : Sees r t calls tr c) (ht : tr.text.isSome = true) :
    ¬ Settled c.slots := by
  intro hsettled
  obtain ⟨entry, hentry⟩ := Option.isSome_iff_exists.mp ht
  have hmem : (entry.1, (⟨entry.2, .message, tr.textValue.drop t, none⟩ : Slot)) ∈
      tr.opens r t calls := by
    simp [opens, textSlots, hentry]
  have hget := (h.tracks.opened _ hmem).1
  rcases hsettled _ (List.mem_of_getElem? hget) with hkind | hdone
  · cases hkind
  · cases hdone

/-! ### The methods -/

/-- The check of a step, and where it leaves the translator. -/
def Passes (r t : ℕ) (calls : List (ℤ × ToolCallState)) (c : Checker)
    (step : List StreamEvent × StreamTranslator) : Prop :=
  ∃ c', c.run step.1 = some c' ∧ Sees r t calls step.2 c'

variable {step : List StreamEvent × StreamTranslator}
    {f : StreamTranslator → List StreamEvent × StreamTranslator}

theorem Passes.next {r' t' : ℕ} {calls' : List (ℤ × ToolCallState)} (h : Passes r t calls c step)
    (hf : ∀ c', Sees r t calls step.2 c' → Passes r' t' calls' c' (f step.2)) :
    Passes r' t' calls' c (next step f) := by
  obtain ⟨c', hrun, hsees⟩ := h
  obtain ⟨c'', hrun', hsees'⟩ := hf c' hsees
  refine ⟨c'', ?_, hsees'⟩
  rw [Checker.run_next, hrun, Option.bind_some, hrun']

theorem Passes.next_none (h : Passes r t calls c step)
    (hf : ∀ c', Sees r t calls step.2 c' → c'.run (f step.2).1 = none) :
    c.run (StreamTranslator.next step f).1 = none := by
  obtain ⟨c', hrun, hsees⟩ := h
  rw [Checker.run_next, hrun, Option.bind_some, hf c' hsees]

theorem run_next_none (h : c.run step.1 = none) :
    c.run (StreamTranslator.next step f).1 = none := by
  rw [Checker.run_next, h]
  rfl

theorem Sees.passes (h : Sees r t calls tr c) (tr' : StreamTranslator) (payloads : List Payload)
    (slots : List Slot) (hsame : tr'.sequence = tr.sequence)
    (hterm : ∀ payload ∈ payloads, payload.isTerminal = false) {r' t' : ℕ}
    {calls' : List (ℤ × ToolCallState)} (hacc : acceptAll c.slots payloads = some slots)
    (hr : r' ≤ tr'.reasoningText.length) (ht : t' ≤ tr'.textValue.length)
    (htracks : Tracks (tr'.opens r' t' calls') tr'.output slots) :
    Passes r' t' calls' c (tr'.events payloads) := by
  refine ⟨⟨c.sequence + payloads.length, slots, false⟩, ?_, ?_⟩
  · rw [run_events (by rw [h.sequence, hsame]) h.running hterm, hacc]
    rfl
  · rw [events_snd]
    exact ⟨by rw [h.sequence, hsame], rfl, hr, ht, htracks⟩

theorem Sees.rejects (h : Sees r t calls tr c) {tr' : StreamTranslator} {payloads : List Payload}
    (hsame : tr'.sequence = tr.sequence) (hterm : ∀ payload ∈ payloads, payload.isTerminal = false)
    (hacc : acceptAll c.slots payloads = none) : c.run (tr'.events payloads).1 = none := by
  rw [run_events (by rw [h.sequence, hsame]) h.running hterm, hacc]
  rfl

variable {index : ℕ} {itemId : Id}

theorem Sees.reasoning_tracks (h : Sees r t calls tr c)
    (hopen : tr.reasoning = some (index, itemId)) :
    Tracks ([] ++ (index, ⟨itemId, .reasoning, tr.reasoningText.drop r, none⟩) ::
      (tr.textSlots t ++ openCalls calls)) tr.output c.slots := by
  have htracks := h.tracks
  rw [opens, reasoningSlots, hopen] at htracks
  exact htracks

theorem Sees.text_tracks (h : Sees r t calls tr c) (hopen : tr.text = some (index, itemId)) :
    Tracks (tr.reasoningSlots r ++ (index, ⟨itemId, .message, tr.textValue.drop t, none⟩) ::
      openCalls calls) tr.output c.slots := by
  have htracks := h.tracks
  rw [opens, textSlots, hopen] at htracks
  exact htracks

theorem drop_eq_self {text : Text} {n : ℕ} (h : n ≤ text.length) : text.drop n = text ↔ n = 0 := by
  constructor
  · intro heq
    have hlen := congrArg List.length heq
    rw [List.length_drop] at hlen
    omega
  · rintro rfl
    rfl

theorem acceptAll_close {slots : List Slot} {i : ℕ} {slot : Slot} (hget : slots[i]? = some slot)
    (hopen : slot.done = none) {first second : Payload} {item : OutputItem}
    (hfirst : accept slots first = spelled slots slot.kind slot.itemId i item.text)
    (hsecond : accept slots second = spelled slots slot.kind slot.itemId i item.text)
    (hkind : item.kind = slot.kind) (hid : item.id = slot.itemId) :
    acceptAll slots [first, second, .outputItemDone i item] =
      if slot.text = item.text then some (slots.set i (closedSlot item)) else none := by
  rw [acceptAll, hfirst, spelled_eq hget hopen]
  split
  · rename_i htext
    rw [Option.bind_some, acceptAll, hsecond, spelled_eq hget hopen, if_pos htext, Option.bind_some,
      acceptAll, accept, hkind, hid, spelled_eq hget hopen, if_pos htext]
    rfl
  · rfl

theorem acceptAll_closeReasoning (h : Sees r t calls tr c)
    (hopen : tr.reasoning = some (index, itemId)) :
    acceptAll c.slots [.reasoningTextDone itemId index 0 tr.reasoningText,
        .contentPartDone itemId index 0 (.reasoningText tr.reasoningText),
        .outputItemDone index (reasoningItem itemId tr.reasoningText .completed)] =
      if r = 0 then
        some (c.slots.set index (closedSlot (reasoningItem itemId tr.reasoningText .completed)))
      else none := by
  have htext : (reasoningItem itemId tr.reasoningText .completed).text = tr.reasoningText := by
    simp [reasoningItem, OutputItem.text, Part.text]
  obtain ⟨hget, hdone⟩ := (h.reasoning_tracks hopen).get []
  rw [acceptAll_close hget hdone (by rw [htext]; rfl) (by rw [htext]; rfl) rfl rfl, htext]
  simp only [drop_eq_self h.reasoning]

theorem acceptAll_closeText (h : Sees r t calls tr c) (hopen : tr.text = some (index, itemId)) :
    acceptAll c.slots [.outputTextDone itemId index 0 tr.textValue,
        .contentPartDone itemId index 0 (.outputText tr.textValue),
        .outputItemDone index (messageItem itemId (some tr.textValue) .completed)] =
      if t = 0 then
        some (c.slots.set index (closedSlot (messageItem itemId (some tr.textValue) .completed)))
      else none := by
  have htext : (messageItem itemId (some tr.textValue) .completed).text = tr.textValue := by
    simp [messageItem, truthy, OutputItem.text, Part.text]
  obtain ⟨hget, hdone⟩ := (h.text_tracks hopen).get _
  rw [acceptAll_close hget hdone (by rw [htext]; rfl) (by rw [htext]; rfl) rfl rfl, htext]
  simp only [drop_eq_self h.text]

theorem closeReasoning_passes (h : Sees r t calls tr c) (hr : tr.reasoning.isSome = true → r = 0) :
    Passes r t calls c tr.closeReasoning := by
  rw [closeReasoning]
  split
  · exact ⟨c, rfl, h⟩
  · rename_i index itemId hopen
    have hacc := acceptAll_closeReasoning h hopen
    rw [if_pos (hr (by rw [hopen]; rfl))] at hacc
    exact h.passes { tr with
        reasoning := none
        output := tr.output.set index (reasoningItem itemId tr.reasoningText .completed) } _ _
      rfl (by simp [Payload.isTerminal]) hacc h.reasoning h.text
      ((h.reasoning_tracks hopen).close [] _)

theorem closeReasoning_none (h : Sees r t calls tr c) (hopen : tr.reasoning.isSome = true)
    (hr : 0 < r) : c.run tr.closeReasoning.1 = none := by
  obtain ⟨⟨index, itemId⟩, hopen⟩ := Option.isSome_iff_exists.mp hopen
  rw [closeReasoning, hopen]
  have hacc := acceptAll_closeReasoning h hopen
  rw [if_neg hr.ne'] at hacc
  exact h.rejects rfl (by simp [Payload.isTerminal]) hacc

theorem closeText_passes (h : Sees r t calls tr c) (ht : tr.text.isSome = true → t = 0) :
    Passes r t calls c tr.closeText := by
  rw [closeText]
  split
  · exact ⟨c, rfl, h⟩
  · rename_i index itemId hopen
    have hacc := acceptAll_closeText h hopen
    rw [if_pos (ht (by rw [hopen]; rfl))] at hacc
    exact h.passes { tr with
        text := none
        output := tr.output.set index (messageItem itemId (some tr.textValue) .completed) } _ _
      rfl (by simp [Payload.isTerminal]) hacc h.reasoning h.text
      ((h.text_tracks hopen).close _ _)

theorem closeText_none (h : Sees r t calls tr c) (hopen : tr.text.isSome = true) (ht : 0 < t) :
    c.run tr.closeText.1 = none := by
  obtain ⟨⟨index, itemId⟩, hopen⟩ := Option.isSome_iff_exists.mp hopen
  rw [closeText, hopen]
  have hacc := acceptAll_closeText h hopen
  rw [if_neg ht.ne'] at hacc
  exact h.rejects rfl (by simp [Payload.isTerminal]) hacc

theorem closeReasoning_snd (tr : StreamTranslator) : ∃ n output, tr.closeReasoning.2 =
    { tr with reasoning := none, sequence := n, output := output } := by
  rw [closeReasoning]
  split
  · rename_i hnone
    exact ⟨tr.sequence, tr.output, by rw [← hnone]⟩
  · rw [events_snd]
    exact ⟨_, _, rfl⟩

theorem closeText_snd (tr : StreamTranslator) : ∃ n output, tr.closeText.2 =
    { tr with text := none, sequence := n, output := output } := by
  rw [closeText]
  split
  · rename_i hnone
    exact ⟨tr.sequence, tr.output, by rw [← hnone]⟩
  · rw [events_snd]
    exact ⟨_, _, rfl⟩

theorem openReasoning_passes (h : Sees r t calls tr c) (hr : tr.reasoning = none)
    (ht : tr.text = none) : Passes tr.reasoningText.length t calls c tr.openReasoning := by
  have hsettled := h.settled hr ht
  have hspent := h.spent_reasoning hr
  have htracks := hspent.tracks
  rw [opens, reasoningSlots, hr] at htracks
  have hadded := Tracks.add [] htracks
    (reasoningItem (.minted .reasoning tr.minted) [] .inProgress)
    ⟨.minted .reasoning tr.minted, .reasoning, [], none⟩ rfl
  obtain ⟨hget, hdone⟩ := hadded.get []
  rw [openReasoning, hr]
  refine hspent.passes { tr with
      minted := tr.minted + 1
      output := tr.output ++ [reasoningItem (.minted .reasoning tr.minted) [] .inProgress]
      reasoning := some (tr.output.length, .minted .reasoning tr.minted) } _
    (c.slots ++ [⟨.minted .reasoning tr.minted, .reasoning, [], none⟩]) rfl
    (by simp [Payload.isTerminal]) ?_ le_rfl h.text ?_
  · have hempty := spelled_eq hget hdone []
    rw [if_pos rfl] at hempty
    rw [acceptAll, accept, if_pos ⟨h.tracks.length.symm, hsettled⟩, Option.bind_some, acceptAll,
      accept]
    exact (congrArg (Option.bind · _) hempty).trans rfl
  · rw [opens, reasoningSlots, List.drop_length]
    exact hadded

theorem openReasoning_none (h : Sees r t calls tr c) (hr : tr.reasoning = none)
    (ht : tr.text.isSome = true) : c.run tr.openReasoning.1 = none := by
  have hacc : acceptAll c.slots [.outputItemAdded tr.output.length
        (reasoningItem (.minted .reasoning tr.minted) [] .inProgress),
      .contentPartAdded (.minted .reasoning tr.minted) tr.output.length 0 (.reasoningText [])] =
        none := by
    rw [acceptAll, accept, if_neg fun hadd => h.not_settled ht hadd.2]
    rfl
  rw [openReasoning, hr]
  exact h.rejects rfl (by simp [Payload.isTerminal]) hacc

theorem openText_passes (h : Sees r t calls tr c) (hr : tr.reasoning = none)
    (ht : tr.text = none) : Passes r tr.textValue.length calls c tr.openText := by
  have hsettled := h.settled hr ht
  have hspent := h.spent_text ht
  have htracks := hspent.tracks
  rw [opens, reasoningSlots, textSlots, hr, ht] at htracks
  have hadded := Tracks.add [] htracks
    (messageItem (.minted .msg tr.minted) none .inProgress)
    ⟨.minted .msg tr.minted, .message, [], none⟩ rfl
  obtain ⟨hget, hdone⟩ := hadded.get []
  rw [openText, ht]
  refine hspent.passes { tr with
      minted := tr.minted + 1
      output := tr.output ++ [messageItem (.minted .msg tr.minted) none .inProgress]
      text := some (tr.output.length, .minted .msg tr.minted) } _
    (c.slots ++ [⟨.minted .msg tr.minted, .message, [], none⟩]) rfl
    (by simp [Payload.isTerminal]) ?_ h.reasoning le_rfl ?_
  · have hempty := spelled_eq hget hdone []
    rw [if_pos rfl] at hempty
    rw [acceptAll, accept, if_pos ⟨h.tracks.length.symm, hsettled⟩, Option.bind_some, acceptAll,
      accept]
    exact (congrArg (Option.bind · _) hempty).trans rfl
  · rw [opens, reasoningSlots, textSlots, List.drop_length, hr]
    exact hadded

theorem appendReasoning_passes (h : Sees r t calls tr c) (hopen : tr.reasoning.isSome = true)
    (delta : Text) : Passes r t calls c (appendReasoning delta tr) := by
  obtain ⟨⟨index, itemId⟩, hopen⟩ := Option.isSome_iff_exists.mp hopen
  have htracks := h.reasoning_tracks hopen
  obtain ⟨hget, hdone⟩ := htracks.get []
  have hlen : r ≤ (tr.reasoningText ++ delta).length := by
    rw [List.length_append]
    exact h.reasoning.trans (Nat.le_add_right _ _)
  have heq : appendReasoning delta tr = { tr with
      reasoningText := tr.reasoningText ++ delta }.events
        [.reasoningTextDelta itemId index 0 delta] := by
    simp only [appendReasoning, hopen]
  rw [heq]
  refine h.passes { tr with reasoningText := tr.reasoningText ++ delta }
    [.reasoningTextDelta itemId index 0 delta]
    (c.slots.set index ⟨itemId, .reasoning, tr.reasoningText.drop r ++ delta, none⟩) rfl
    (by simp [Payload.isTerminal]) ?_ hlen h.text ?_
  · exact congrArg (Option.bind · _) (spell_eq hget hdone delta)
  · rw [opens, reasoningSlots, hopen, List.drop_append_of_le_length h.reasoning]
    exact Tracks.spell _ htracks _ rfl

theorem appendText_passes (h : Sees r t calls tr c) (hopen : tr.text.isSome = true)
    (delta : Text) : Passes r t calls c (appendText delta tr) := by
  obtain ⟨⟨index, itemId⟩, hopen⟩ := Option.isSome_iff_exists.mp hopen
  have htracks := h.text_tracks hopen
  obtain ⟨hget, hdone⟩ := htracks.get _
  have hlen : t ≤ (tr.textValue ++ delta).length := by
    rw [List.length_append]
    exact h.text.trans (Nat.le_add_right _ _)
  have heq : appendText delta tr = { tr with
      textValue := tr.textValue ++ delta }.events [.outputTextDelta itemId index 0 delta] := by
    simp only [appendText, hopen]
  rw [heq]
  refine h.passes { tr with textValue := tr.textValue ++ delta }
    [.outputTextDelta itemId index 0 delta]
    (c.slots.set index ⟨itemId, .message, tr.textValue.drop t ++ delta, none⟩) rfl
    (by simp [Payload.isTerminal]) ?_ h.reasoning hlen ?_
  · exact congrArg (Option.bind · _) (spell_eq hget hdone delta)
  · rw [opens, textSlots, hopen, List.drop_append_of_le_length h.text]
    exact Tracks.spell _ htracks _ rfl

theorem closeBoth_passes (h : Sees r t calls tr c) (hr : tr.reasoning.isSome = true → r = 0)
    (ht : tr.text.isSome = true → t = 0) :
    Passes r t calls c (StreamTranslator.next tr.closeReasoning closeText) := by
  refine (closeReasoning_passes h hr).next fun c' h' => closeText_passes h' ?_
  obtain ⟨n, output, heq⟩ := closeReasoning_snd tr
  rw [heq]
  exact ht

theorem closeBoth_snd (tr : StreamTranslator) : ∃ n output,
    (StreamTranslator.next tr.closeReasoning closeText).2 =
      { tr with reasoning := none, text := none, sequence := n, output := output } := by
  obtain ⟨n, output, heq⟩ := closeReasoning_snd tr
  obtain ⟨n', output', heq'⟩ := closeText_snd tr.closeReasoning.2
  refine ⟨n', output', ?_⟩
  rw [StreamTranslator.next, heq', heq]

theorem closeBoth_none (h : Sees r t calls tr c) (hleft : tr.reasoning.isSome = true ∧ 0 < r ∨
      tr.reasoning = none ∧ tr.text.isSome = true ∧ 0 < t) :
    c.run (StreamTranslator.next tr.closeReasoning closeText).1 = none := by
  rcases hleft with ⟨hopen, hr⟩ | ⟨hnone, hopen, ht⟩
  · exact run_next_none (closeReasoning_none h hopen hr)
  · refine (closeReasoning_passes h fun hsome => ?_).next_none fun c' h' => ?_
    · rw [hnone] at hsome
      cases hsome
    · obtain ⟨n, output, heq⟩ := closeReasoning_snd tr
      refine closeText_none h' ?_ ht
      rw [heq]
      exact hopen

end Otari.Bridge

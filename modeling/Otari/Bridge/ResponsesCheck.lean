import Otari.Bridge.Responses

/-!
# Bridge — ResponsesCheck — what a well-formed Responses stream is

A stream is checked event by event (`Checker`): the numbers count up from 0, an item is added at the
next index with every text and reasoning item before it done, each item is done once, every text
said to be done is what the item's own deltas spelled, and the terminal response lists the items as
they were done.

`Tracks` says where a check stands: the items still open with what they have spelled, the others as
they were done.  An item is added, spelled and closed (`Tracks.add`, `Tracks.spell`,
`Tracks.close`).
-/

namespace Otari.Bridge
open StreamTranslator List

/-! ### The check -/

inductive Kind where
  | reasoning
  | message
  | functionCall
deriving DecidableEq

def Part.text : Part → Text
  | .reasoningText text => text
  | .outputText text => text
  | .refusal text => text

def Part.kind : Part → Kind
  | .reasoningText _ => .reasoning
  | _ => .message

namespace OutputItem

def id : OutputItem → Id
  | .reasoning id _ _ => id
  | .message id _ _ => id
  | .functionCall id _ _ _ _ => id

def kind : OutputItem → Kind
  | .reasoning _ _ _ => .reasoning
  | .message _ _ _ => .message
  | .functionCall _ _ _ _ _ => .functionCall

/-- The text an item's deltas spell: its parts, or its arguments. -/
def text : OutputItem → Text
  | .reasoning _ content _ => content.flatMap Part.text
  | .message _ content _ => content.flatMap Part.text
  | .functionCall _ _ _ arguments _ => arguments

end OutputItem

/-- An item of the stream: what its own deltas have spelled, and the item it was done with. -/
structure Slot where
  itemId : Id
  kind : Kind
  text : Text := []
  done : Option OutputItem := none
deriving DecidableEq

def closedSlot (item : OutputItem) : Slot :=
  ⟨item.id, item.kind, item.text, some item⟩

def openSlot (slots : List Slot) (kind : Kind) (itemId : Id) (i : ℕ) : Option Slot :=
  slots[i]?.filter fun slot => slot.kind = kind ∧ slot.itemId = itemId ∧ slot.done = none

def spell (slots : List Slot) (kind : Kind) (itemId : Id) (i : ℕ) (delta : Text) :
    Option (List Slot) :=
  (openSlot slots kind itemId i).map fun slot =>
    slots.set i { slot with text := slot.text ++ delta }

/-- An open item's text, as an event gives it. -/
def spelled (slots : List Slot) (kind : Kind) (itemId : Id) (i : ℕ) (text : Text) :
    Option (List Slot) :=
  if (openSlot slots kind itemId i).map (·.text) = some text then some slots else none

/-- Every text and reasoning item so far is done. -/
def Settled (slots : List Slot) : Prop :=
  ∀ slot ∈ slots, slot.kind = .functionCall ∨ slot.done.isSome = true

instance (slots : List Slot) : Decidable (Settled slots) :=
  inferInstanceAs (Decidable (∀ slot ∈ slots, _))

def accept (slots : List Slot) : Payload → Option (List Slot)
  | .created _ => some slots
  | .inProgress _ => some slots
  | .outputItemAdded i item =>
    if i = slots.length ∧ Settled slots then some (slots ++ [⟨item.id, item.kind, [], none⟩])
    else none
  | .contentPartAdded itemId i _ part => spelled slots part.kind itemId i part.text
  | .outputTextDelta itemId i _ delta => spell slots .message itemId i delta
  | .reasoningTextDelta itemId i _ delta => spell slots .reasoning itemId i delta
  | .functionCallArgumentsDelta itemId i delta => spell slots .functionCall itemId i delta
  | .outputTextDone itemId i _ text => spelled slots .message itemId i text
  | .reasoningTextDone itemId i _ text => spelled slots .reasoning itemId i text
  | .functionCallArgumentsDone itemId i _ arguments =>
    spelled slots .functionCall itemId i arguments
  | .contentPartDone itemId i _ part => spelled slots part.kind itemId i part.text
  | .outputItemDone i item =>
    (spelled slots item.kind item.id i item.text).map (·.set i (closedSlot item))
  | .completed response | .incomplete response =>
    if slots.map (·.done) = response.output.map some then some slots else none

def Payload.isTerminal : Payload → Bool
  | .completed _ | .incomplete _ => true
  | _ => false

/-- The stream so far: how many events, the items, and whether it has ended. -/
structure Checker where
  sequence : ℕ := 0
  slots : List Slot := []
  finished : Bool := false
deriving DecidableEq

def Checker.step (c : Checker) (event : StreamEvent) : Option Checker :=
  if event.sequenceNumber = c.sequence ∧ c.finished = false then
    (accept c.slots event.payload).map fun slots =>
      ⟨c.sequence + 1, slots, event.payload.isTerminal⟩
  else none

def Checker.run (c : Checker) : List StreamEvent → Option Checker
  | [] => some c
  | event :: events => (c.step event).bind fun c => c.run events

/-- **A well-formed Responses stream.** -/
def WellFormed (events : List StreamEvent) : Prop :=
  (Checker.run {} events).map (·.finished) = some true

instance (events : List StreamEvent) : Decidable (WellFormed events) :=
  inferInstanceAs (Decidable (_ = _))

/-! ### Running the check -/

theorem Checker.run_append (c : Checker) (events rest : List StreamEvent) :
    c.run (events ++ rest) = (c.run events).bind fun c => c.run rest := by
  induction events generalizing c with
  | nil => rfl
  | cons event events ih =>
    rw [cons_append, Checker.run, Checker.run, Option.bind_assoc]
    congr 1
    funext c'
    exact ih c'

theorem Checker.run_next (c : Checker) (step : List StreamEvent × StreamTranslator)
    (f : StreamTranslator → List StreamEvent × StreamTranslator) :
    c.run (next step f).1 = (c.run step.1).bind fun c => c.run (f step.2).1 :=
  c.run_append _ _

def acceptAll (slots : List Slot) : List Payload → Option (List Slot)
  | [] => some slots
  | payload :: payloads => (accept slots payload).bind fun slots => acceptAll slots payloads

@[simp] theorem events_snd (tr : StreamTranslator) (payloads : List Payload) :
    (tr.events payloads).2 = { tr with sequence := tr.sequence + payloads.length } := by
  induction payloads generalizing tr with
  | nil => rfl
  | cons payload payloads ih =>
    rw [events, ih]
    simp only [length_cons]
    congr 1
    omega

theorem run_events {c : Checker} {tr : StreamTranslator} (hseq : c.sequence = tr.sequence)
    (hrun : c.finished = false) {payloads : List Payload}
    (hterm : ∀ payload ∈ payloads, payload.isTerminal = false) :
    c.run (tr.events payloads).1 = (acceptAll c.slots payloads).map fun slots =>
      ⟨c.sequence + payloads.length, slots, false⟩ := by
  induction payloads generalizing c tr with
  | nil =>
    cases c
    cases hrun
    rfl
  | cons payload payloads ih =>
    have hstep : c.step ⟨tr.sequence, payload⟩ = (accept c.slots payload).map fun slots =>
        ⟨c.sequence + 1, slots, false⟩ := by
      rw [Checker.step, if_pos ⟨hseq.symm, hrun⟩, hterm payload mem_cons_self]
    rw [events, Checker.run, hstep, acceptAll]
    cases accept c.slots payload with
    | none => rfl
    | some slots =>
      have hnext : c.sequence + 1 = { tr with sequence := tr.sequence + 1 }.sequence := by
        rw [hseq]
      have hrest := @ih ⟨c.sequence + 1, slots, false⟩ _ hnext rfl
        fun p hp => hterm p (mem_cons_of_mem _ hp)
      simp only [Option.map_some, Option.bind_some]
      rw [hrest, length_cons]
      congr 1
      funext slots
      congr 1
      exact Nat.add_right_comm _ _ _

/-! ### The open items -/

/-- The slots are the open items with what they have spelled, and for every other index the item of
the output, done. -/
structure Tracks (opens : List (ℕ × Slot)) (output : List OutputItem) (slots : List Slot) : Prop where
  length : slots.length = output.length
  nodup : (opens.map Prod.fst).Nodup
  opened : ∀ entry ∈ opens, slots[entry.1]? = some entry.2 ∧ entry.2.done = none
  closed : ∀ i, i ∉ opens.map Prod.fst → slots[i]? = output[i]?.map closedSlot

section
variable (before : List (ℕ × Slot)) {after : List (ℕ × Slot)} {output : List OutputItem}
  {slots : List Slot} {i : ℕ} {slot : Slot}

theorem Tracks.get (h : Tracks (before ++ (i, slot) :: after) output slots) :
    slots[i]? = some slot ∧ slot.done = none :=
  h.opened (i, slot) (by simp)

theorem Tracks.lt (h : Tracks (before ++ (i, slot) :: after) output slots) : i < slots.length :=
  (List.getElem?_eq_some_iff.mp (h.get before).1).1

theorem Tracks.ne (h : Tracks (before ++ (i, slot) :: after) output slots) :
    ∀ entry ∈ before ++ after, entry.1 ≠ i := by
  intro entry hmem heq
  have hnd := h.nodup
  rw [map_append, map_cons, nodup_middle, nodup_cons] at hnd
  refine hnd.1 (mem_append.mpr ?_)
  rcases mem_append.mp hmem with hb | ha
  · exact .inl (mem_map.mpr ⟨entry, hb, heq⟩)
  · exact .inr (mem_map.mpr ⟨entry, ha, heq⟩)

theorem Tracks.add (h : Tracks (before ++ after) output slots) (item : OutputItem)
    (slot : Slot) (hopen : slot.done = none) :
    Tracks (before ++ (output.length, slot) :: after) (output ++ [item]) (slots ++ [slot]) where
  length := by rw [length_append, length_append, h.length]; rfl
  nodup := by
    rw [map_append, map_cons, nodup_middle, nodup_cons]
    rw [← map_append]
    refine ⟨fun hmem => ?_, h.nodup⟩
    obtain ⟨entry, hentry, heq⟩ := mem_map.mp hmem
    have hlt := (List.getElem?_eq_some_iff.mp (h.opened entry hentry).1).1
    rw [h.length] at hlt
    exact absurd heq (by simpa using hlt.ne)
  opened entry hmem := by
    have hcase : entry = (output.length, slot) ∨ entry ∈ before ++ after := by
      simp only [mem_append, mem_cons] at hmem ⊢
      tauto
    rcases hcase with rfl | hold
    · refine ⟨?_, hopen⟩
      rw [← h.length, List.getElem?_concat_length]
    · obtain ⟨hget, hdone⟩ := h.opened entry hold
      refine ⟨?_, hdone⟩
      rw [List.getElem?_append_left (List.getElem?_eq_some_iff.mp hget).1]
      exact hget
  closed j hj := by
    have hne : j ≠ output.length := fun heq => hj (by simp [heq])
    have hold : j ∉ (before ++ after).map Prod.fst := by
      intro hmem
      apply hj
      simp only [map_append, map_cons, mem_append, mem_cons] at hmem ⊢
      tauto
    rcases lt_or_gt_of_ne hne with hlt | hgt
    · rw [List.getElem?_append_left (by rw [h.length]; exact hlt), List.getElem?_append_left hlt]
      exact h.closed j hold
    · rw [List.getElem?_eq_none (by simp [h.length]; omega),
        List.getElem?_eq_none (by simp; omega)]
      rfl

theorem Tracks.spell (h : Tracks (before ++ (i, slot) :: after) output slots) (slot' : Slot)
    (hopen : slot'.done = none) :
    Tracks (before ++ (i, slot') :: after) output (slots.set i slot') where
  length := by rw [length_set, h.length]
  nodup := by simpa using h.nodup
  opened entry hmem := by
    have hcase : entry = (i, slot') ∨ entry ∈ before ++ after := by
      simp only [mem_append, mem_cons] at hmem ⊢
      tauto
    rcases hcase with rfl | hold
    · exact ⟨List.getElem?_set_self (h.lt before), hopen⟩
    · rw [List.getElem?_set_ne (h.ne before entry hold).symm]
      refine h.opened entry ?_
      simp only [mem_append, mem_cons] at hold ⊢
      tauto
  closed j hj := by
    have hne : i ≠ j := by
      rintro rfl
      exact hj (by simp)
    rw [List.getElem?_set_ne hne]
    exact h.closed j (by simpa using hj)

theorem Tracks.close (h : Tracks (before ++ (i, slot) :: after) output slots) (item : OutputItem) :
    Tracks (before ++ after) (output.set i item) (slots.set i (closedSlot item)) where
  length := by rw [length_set, length_set, h.length]
  nodup := by
    have hnd := h.nodup
    rw [map_append, map_cons, nodup_middle, nodup_cons] at hnd
    rw [map_append]
    exact hnd.2
  opened entry hmem := by
    rw [List.getElem?_set_ne (h.ne before entry hmem).symm]
    refine h.opened entry ?_
    simp only [mem_append, mem_cons] at hmem ⊢
    tauto
  closed j hj := by
    by_cases heq : i = j
    · subst heq
      have hlt : i < output.length := h.length ▸ h.lt before
      rw [List.getElem?_set_self (h.lt before), List.getElem?_set_self hlt]
      rfl
    · rw [List.getElem?_set_ne heq, List.getElem?_set_ne heq]
      refine h.closed j ?_
      simp only [map_append, map_cons, mem_append, mem_cons] at hj ⊢
      tauto

end

section
variable {output : List OutputItem} {slots : List Slot} {i : ℕ} {slot : Slot}

theorem Tracks.all_closed (h : Tracks [] output slots) : slots = output.map closedSlot := by
  refine ext_getElem? fun j => ?_
  rw [h.closed j (by simp), List.getElem?_map]

theorem openSlot_eq (hget : slots[i]? = some slot) (hopen : slot.done = none) :
    openSlot slots slot.kind slot.itemId i = some slot := by
  simp [openSlot, hget, hopen]

theorem spell_eq (hget : slots[i]? = some slot) (hopen : slot.done = none) (delta : Text) :
    spell slots slot.kind slot.itemId i delta =
      some (slots.set i { slot with text := slot.text ++ delta }) := by
  rw [Otari.Bridge.spell, openSlot_eq hget hopen]
  rfl

theorem spelled_eq (hget : slots[i]? = some slot) (hopen : slot.done = none) (text : Text) :
    spelled slots slot.kind slot.itemId i text = if slot.text = text then some slots else none := by
  rw [spelled, openSlot_eq hget hopen]
  simp

end

end Otari.Bridge

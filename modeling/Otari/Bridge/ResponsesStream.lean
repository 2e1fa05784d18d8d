import Otari.Bridge.ResponsesCalls

/-!
# Bridge — ResponsesStream — which streams of chunks come out well formed

The translator never empties its two buffers and closes no text for a reasoning item, so the check
passes exactly where no text or reasoning item is gone back to and no reasoning item is begun right
after a text (`stream_wellFormed_iff`).  `Ready` is where the translator is as long as that holds,
`Doomed` where it is once it does not.
-/

namespace Otari.Bridge
open StreamTranslator List
open Option hiding map map_map mem_map

/-! ### What the chunks say -/

/-- A delta that is not empty. -/
inductive Piece where
  | reasoning (text : Text)
  | text (text : Text)
  | call (call : ToolCallDelta)

/-- The deltas of a chunk, in the order they are translated. -/
def ChatCompletionChunk.pieces (chunk : ChatCompletionChunk) : List Piece :=
  match chunk.choices with
  | [] => []
  | choice :: _ =>
    let text := choice.delta.content.getD [] ++ choice.delta.refusal.getD []
    (truthy choice.delta.reasoning).toList.map .reasoning ++
      (if text ≠ [] then [.text text] else []) ++ choice.delta.toolCalls.map .call

/-- What a delta touches: the reasoning item, the text item, or a call's item, which it opens. -/
inductive Mark where
  | reasoning
  | text
  | call
deriving DecidableEq

/-- The marks of the deltas.  A tool-call delta counts when it opens its call: it is the first of
its index with a name. -/
def marks (named : List ℤ) : List Piece → List Mark
  | [] => []
  | .reasoning _ :: pieces => .reasoning :: marks named pieces
  | .text _ :: pieces => .text :: marks named pieces
  | .call call :: pieces =>
    if call.name ≠ [] ∧ call.index ∉ named then .call :: marks (call.index :: named) pieces
    else marks named pieces

/-- What a mark may be after others, the last of them first: it goes on with the item the last one
touched, or is the first of its kind, a reasoning one not right after a text. -/
def Fresh (past : List Mark) : Mark → Prop
  | .reasoning => past.head? = some .reasoning ∨
      .reasoning ∉ past ∧ past.head? ≠ some .text
  | .text => past.head? = some .text ∨ .text ∉ past
  | .call => True

/-- No mark goes back to an item that was left. -/
def Orderly (past : List Mark) : List Mark → Prop
  | [] => True
  | mark :: marks => Fresh past mark ∧ Orderly (mark :: past) marks

instance (past : List Mark) (mark : Mark) : Decidable (Fresh past mark) := by
  cases mark <;> rw [Fresh] <;> infer_instance

variable {r t : ℕ} {calls : List (ℤ × ToolCallState)} {tr : StreamTranslator} {c : Checker}

/-! ### One delta -/

/-- `Piece` by `Piece`, as `feed` translates them. -/
def StreamTranslator.take (tr : StreamTranslator) : Piece → List StreamEvent × StreamTranslator
  | .reasoning text => tr.reasoningDelta text
  | .text text => tr.textDelta text
  | .call call => tr.toolCallDelta call

def StreamTranslator.takeAll (tr : StreamTranslator) :
    List Piece → List StreamEvent × StreamTranslator
  | [] => ([], tr)
  | piece :: pieces => next (tr.take piece) fun tr => tr.takeAll pieces

def Piece.Real : Piece → Prop
  | .reasoning delta => delta ≠ []
  | .text delta => delta ≠ []
  | .call _ => True

/-- What the translator is after marks that left no item: at most one buffer is in use, and each
holds its one item's text. -/
structure Ready (past : List Mark) (named : List ℤ) (tr : StreamTranslator) (c : Checker) :
    Prop where
  sees : ∃ r t, Sees r t tr.toolCalls tr c ∧ (tr.reasoning.isSome = true → r = 0) ∧
    (tr.text.isSome = true → t = 0)
  calls : CallsOk tr.toolCalls
  named : ∀ k, k ∈ named ↔ Named tr.toolCalls k
  reasoning : tr.reasoning.isSome = true ↔ past.head? = some .reasoning
  text : tr.text.isSome = true ↔ past.head? = some .text
  reasoningText : tr.reasoningText = [] ↔ .reasoning ∉ past
  textValue : tr.textValue = [] ↔ .text ∉ past

/-- After a mark that went back: what is open now will not be closed well. -/
structure Doomed (tr : StreamTranslator) (c : Checker) : Prop where
  sees : ∃ r t, Sees r t tr.toolCalls tr c ∧ Leftover r t tr
  calls : CallsOk tr.toolCalls

theorem openReasoning_snd (tr : StreamTranslator) : ∃ n m output open_, open_.isSome = true ∧
    tr.openReasoning.2 = { tr with
      sequence := n, minted := m, output := output, reasoning := open_ } := by
  rw [openReasoning]
  split
  · rename_i entry hopen
    exact ⟨_, _, _, some entry, rfl, by rw [← hopen]⟩
  · simp only [newId, openItem, events_snd]
    exact ⟨_, _, _, _, rfl, rfl⟩

theorem openText_snd (tr : StreamTranslator) : ∃ n m output open_, open_.isSome = true ∧
    tr.openText.2 = { tr with sequence := n, minted := m, output := output, text := open_ } := by
  rw [openText]
  split
  · rename_i entry hopen
    exact ⟨_, _, _, some entry, rfl, by rw [← hopen]⟩
  · simp only [newId, openItem, events_snd]
    exact ⟨_, _, _, _, rfl, rfl⟩

theorem appendReasoning_snd (hopen : tr.reasoning.isSome = true) (delta : Text) :
    ∃ n, (appendReasoning delta tr).2 =
      { tr with sequence := n, reasoningText := tr.reasoningText ++ delta } := by
  obtain ⟨entry, hopen⟩ := isSome_iff_exists.mp hopen
  refine ⟨tr.sequence + 1, ?_⟩
  simp only [appendReasoning, hopen, events_snd]
  rfl

theorem appendText_snd (hopen : tr.text.isSome = true) (delta : Text) :
    ∃ n, (appendText delta tr).2 =
      { tr with sequence := n, textValue := tr.textValue ++ delta } := by
  obtain ⟨entry, hopen⟩ := isSome_iff_exists.mp hopen
  refine ⟨tr.sequence + 1, ?_⟩
  simp only [appendText, hopen, events_snd]
  rfl

theorem reasoningDelta_snd (tr : StreamTranslator) (delta : Text) :
    ∃ n m output open_, open_.isSome = true ∧ (tr.reasoningDelta delta).2 = { tr with
      sequence := n, minted := m, output := output, reasoning := open_,
      reasoningText := tr.reasoningText ++ delta } := by
  obtain ⟨n, m, output, open_, hsome, heq⟩ := openReasoning_snd tr
  have hopen : tr.openReasoning.2.reasoning.isSome = true := by
    rw [heq]
    exact hsome
  obtain ⟨n', heq'⟩ := appendReasoning_snd hopen delta
  refine ⟨n', m, output, open_, hsome, ?_⟩
  rw [reasoningDelta, StreamTranslator.next, heq', heq]

theorem textDelta_snd (tr : StreamTranslator) (delta : Text) :
    ∃ n m output open_, open_.isSome = true ∧ (tr.textDelta delta).2 = { tr with
      sequence := n, minted := m, output := output, reasoning := none, text := open_,
      textValue := tr.textValue ++ delta } := by
  obtain ⟨n₀, output₀, heq₀⟩ := closeReasoning_snd tr
  obtain ⟨n, m, output, open_, hsome, heq⟩ := openText_snd tr.closeReasoning.2
  have hopen : tr.closeReasoning.2.openText.2.text.isSome = true := by
    rw [heq]
    exact hsome
  obtain ⟨n', heq'⟩ := appendText_snd hopen delta
  refine ⟨n', m, output, open_, hsome, ?_⟩
  rw [textDelta, StreamTranslator.next, StreamTranslator.next, heq', heq, heq₀]

theorem absent {α : Type} {o : Option α} {p : Prop} (h : o = none) : o.isSome = true → p := by
  intro hsome
  rw [h] at hsome
  cases hsome

theorem openReasoning_fresh (h : Sees r t calls tr c) (hr : tr.reasoning.isSome = true → r = 0)
    (hfresh : tr.reasoning = none → tr.text = none ∧ tr.reasoningText = []) :
    Passes 0 t calls c tr.openReasoning := by
  cases hcase : tr.reasoning with
  | some entry =>
    obtain rfl := hr (by rw [hcase]; rfl)
    rw [openReasoning, hcase]
    exact ⟨c, rfl, h⟩
  | none =>
    obtain ⟨htext, hempty⟩ := hfresh hcase
    have hpass := openReasoning_passes h hcase htext
    rwa [hempty] at hpass

theorem reasoningDelta_passes (hpass : Passes r t calls c tr.openReasoning) (delta : Text) :
    Passes r t calls c (tr.reasoningDelta delta) := by
  obtain ⟨n, m, output, open_, hsome, heq⟩ := openReasoning_snd tr
  refine hpass.next fun c' h' => appendReasoning_passes h' ?_ delta
  rw [heq]
  exact hsome

theorem openText_fresh (h : Sees r t calls tr c) (hr : tr.reasoning = none)
    (ht : tr.text.isSome = true → t = 0) (hfresh : tr.text = none → tr.textValue = []) :
    Passes r 0 calls c tr.openText := by
  cases hcase : tr.text with
  | some entry =>
    obtain rfl := ht (by rw [hcase]; rfl)
    rw [openText, hcase]
    exact ⟨c, rfl, h⟩
  | none =>
    have hpass := openText_passes h hr hcase
    rwa [hfresh hcase] at hpass

theorem textDelta_passes
    (hpass : Passes r t calls c (StreamTranslator.next tr.closeReasoning openText)) (delta : Text) :
    Passes r t calls c (tr.textDelta delta) := by
  obtain ⟨n, m, output, open_, hsome, heq⟩ := openText_snd tr.closeReasoning.2
  refine hpass.next fun c' h' => appendText_passes h' ?_ delta
  rw [StreamTranslator.next, heq]
  exact hsome

section
variable {past : List Mark} {named : List ℤ}

theorem Ready.reasoning_none (h : Ready past named tr c) (hhead : past.head? ≠ some .reasoning) :
    tr.reasoning = none := by
  rw [← not_isSome_iff_eq_none, h.reasoning]
  exact hhead

theorem Ready.text_none (h : Ready past named tr c) (hhead : past.head? ≠ some .text) :
    tr.text = none := by
  rw [← not_isSome_iff_eq_none, h.text]
  exact hhead

theorem Ready.reasoningDelta (h : Ready past named tr c) (hfresh : Fresh past .reasoning)
    {delta : Text} (hreal : delta ≠ []) : ∃ c', c.run (tr.reasoningDelta delta).1 = some c' ∧
      Ready (.reasoning :: past) named (tr.reasoningDelta delta).2 c' := by
  obtain ⟨r, t, hsees, hr, -⟩ := h.sees
  have htext : tr.text = none := by
    refine h.text_none fun hhead => ?_
    rcases hfresh with hcont | ⟨-, hnot⟩
    · rw [hhead] at hcont
      cases hcont
    · exact hnot hhead
  have hspent : tr.reasoning = none → tr.reasoningText = [] := by
    intro hnone
    refine h.reasoningText.mpr ?_
    rcases hfresh with hcont | ⟨hmem, -⟩
    · exact absent hnone (h.reasoning.mpr hcont)
    · exact hmem
  obtain ⟨c', hrun, hsees'⟩ := reasoningDelta_passes
    (openReasoning_fresh hsees hr fun hnone => ⟨htext, hspent hnone⟩) delta
  obtain ⟨n, m, output, open_, hsome, heq⟩ := reasoningDelta_snd tr delta
  refine ⟨c', hrun, ?_⟩
  rw [heq] at hsees' ⊢
  exact {
    sees := ⟨0, t, hsees', fun _ => rfl, absent htext⟩
    calls := h.calls
    named := h.named
    reasoning := by simp [hsome]
    text := by simp [htext]
    reasoningText := by simp [hreal]
    textValue := by simp [h.textValue] }

theorem Ready.textDelta (h : Ready past named tr c) (hfresh : Fresh past .text) {delta : Text}
    (hreal : delta ≠ []) : ∃ c', c.run (tr.textDelta delta).1 = some c' ∧
      Ready (.text :: past) named (tr.textDelta delta).2 c' := by
  obtain ⟨r, t, hsees, hr, ht⟩ := h.sees
  have hspent : tr.text = none → tr.textValue = [] := by
    intro hnone
    refine h.textValue.mpr ?_
    rcases hfresh with hcont | hmem
    · exact absent hnone (h.text.mpr hcont)
    · exact hmem
  obtain ⟨n₀, output₀, heq₀⟩ := closeReasoning_snd tr
  have hopened : Passes r 0 tr.toolCalls c (StreamTranslator.next tr.closeReasoning openText) := by
    refine (closeReasoning_passes hsees hr).next fun c' h' => ?_
    refine openText_fresh h' ?_ ?_ ?_
    · rw [heq₀]
    · rw [heq₀]
      exact ht
    · rw [heq₀]
      exact hspent
  obtain ⟨c', hrun, hsees'⟩ := textDelta_passes hopened delta
  obtain ⟨n, m, output, open_, hsome, heq⟩ := textDelta_snd tr delta
  refine ⟨c', hrun, ?_⟩
  rw [heq] at hsees' ⊢
  exact {
    sees := ⟨r, 0, hsees', absent rfl, fun _ => rfl⟩
    calls := h.calls
    named := h.named
    reasoning := by simp
    text := by simp [hsome]
    reasoningText := by simp [h.reasoningText]
    textValue := by simp [hreal] }

theorem Ready.toolCallDelta (h : Ready past named tr c) (call : ToolCallDelta) :
    ∃ c', c.run (tr.toolCallDelta call).1 = some c' ∧
      if call.name ≠ [] ∧ call.index ∉ named then
        Ready (.call :: past) (call.index :: named) (tr.toolCallDelta call).2 c'
      else Ready past named (tr.toolCallDelta call).2 c' := by
  obtain ⟨r, t, hsees, hr, ht⟩ := h.sees
  obtain ⟨⟨c', hrun, hsees'⟩, hafter⟩ :=
    toolCallDelta_passes hsees h.calls call fun _ => ⟨hr, ht⟩
  refine ⟨c', hrun, ?_⟩
  have hiff : (call.name ≠ [] ∧ call.index ∉ named) ↔
      call.name ≠ [] ∧ ¬ Named tr.toolCalls call.index :=
    and_congr_right fun _ => not_congr (h.named call.index)
  split
  · rename_i hopens
    obtain ⟨hreasoning, htext, hnamed⟩ := hafter.opens (hiff.mp hopens)
    exact {
      sees := ⟨r, t, hsees', absent hreasoning, absent htext⟩
      calls := hafter.ok
      named := fun k => (mem_cons.trans (or_congr_right (h.named k))).trans (hnamed k).symm
      reasoning := by simp [hreasoning]
      text := by simp [htext]
      reasoningText := by simp [hafter.reasoningText, h.reasoningText]
      textValue := by simp [hafter.textValue, h.textValue] }
  · rename_i hkeeps
    obtain ⟨hreasoning, htext, hnamed⟩ := hafter.keeps (hiff.not.mp hkeeps)
    exact {
      sees := ⟨r, t, hsees', fun hr' => hr (hreasoning ▸ hr'), fun ht' => ht (htext ▸ ht')⟩
      calls := hafter.ok
      named := fun k => (h.named k).trans (hnamed k).symm
      reasoning := by rw [hreasoning, h.reasoning]
      text := by rw [htext, h.text]
      reasoningText := by rw [hafter.reasoningText, h.reasoningText]
      textValue := by rw [hafter.textValue, h.textValue] }

/-- The check stops, or sees what was left open. -/
def Breaks (c : Checker) (step : List StreamEvent × StreamTranslator) : Prop :=
  c.run step.1 = none ∨ ∃ c', c.run step.1 = some c' ∧ Doomed step.2 c'

theorem Ready.reasoningDelta_breaks (h : Ready past named tr c) (hstale : ¬ Fresh past .reasoning)
    (delta : Text) : Breaks c (tr.reasoningDelta delta) := by
  obtain ⟨r, t, hsees, hr, ht⟩ := h.sees
  obtain ⟨hnot, hback⟩ := not_or.mp hstale
  have hnone := h.reasoning_none hnot
  by_cases hhead : past.head? = some .text
  · exact .inl (run_next_none (openReasoning_none hsees hnone (h.text.mpr hhead)))
  · have hmem : Mark.reasoning ∈ past := by
      by_contra hmem
      exact hback ⟨hmem, hhead⟩
    have hspent : tr.reasoningText ≠ [] := fun hempty => h.reasoningText.mp hempty hmem
    obtain ⟨c', hrun, hsees'⟩ := reasoningDelta_passes
      (openReasoning_passes hsees hnone (h.text_none hhead)) delta
    obtain ⟨n, m, output, open_, hsome, heq⟩ := reasoningDelta_snd tr delta
    refine .inr ⟨c', hrun, ?_⟩
    rw [heq] at hsees' ⊢
    exact ⟨⟨_, t, hsees', .inl ⟨hsome, length_pos_iff.mpr hspent⟩⟩, h.calls⟩

theorem Ready.textDelta_breaks (h : Ready past named tr c) (hstale : ¬ Fresh past .text)
    (delta : Text) : Breaks c (tr.textDelta delta) := by
  obtain ⟨r, t, hsees, hr, -⟩ := h.sees
  obtain ⟨hnot, hmem⟩ := not_or.mp hstale
  have hnone := h.text_none hnot
  have hspent : tr.textValue ≠ [] := fun hempty => h.textValue.mp hempty (not_not.mp hmem)
  obtain ⟨n₀, output₀, heq₀⟩ := closeReasoning_snd tr
  have hopened : Passes r tr.textValue.length tr.toolCalls c
      (StreamTranslator.next tr.closeReasoning openText) := by
    refine (closeReasoning_passes hsees hr).next fun c' h' => ?_
    have hpass := openText_passes h' (by rw [heq₀]) (by rw [heq₀]; exact hnone)
    rw [heq₀] at hpass ⊢
    exact hpass
  obtain ⟨c', hrun, hsees'⟩ := textDelta_passes hopened delta
  obtain ⟨n, m, output, open_, hsome, heq⟩ := textDelta_snd tr delta
  refine .inr ⟨c', hrun, ?_⟩
  rw [heq] at hsees' ⊢
  exact ⟨⟨r, _, hsees', .inr ⟨rfl, hsome, length_pos_iff.mpr hspent⟩⟩, h.calls⟩

theorem Doomed.take (h : Doomed tr c) (piece : Piece) : Breaks c (tr.take piece) := by
  obtain ⟨⟨r, t, hsees, hleft⟩, hok⟩ := h
  cases piece with
  | reasoning delta =>
    rcases hleft with ⟨hopen, hr⟩ | ⟨hnone, hopen, ht⟩
    · have hstay : tr.openReasoning = ([], tr) := by
        obtain ⟨entry, hentry⟩ := isSome_iff_exists.mp hopen
        rw [openReasoning, hentry]
      have hopened : Passes r t tr.toolCalls c tr.openReasoning := by
        rw [hstay]
        exact ⟨c, rfl, hsees⟩
      obtain ⟨c', hrun, hsees'⟩ := reasoningDelta_passes hopened delta
      obtain ⟨n, m, output, open_, hsome, heq⟩ := reasoningDelta_snd tr delta
      refine .inr ⟨c', hrun, ?_⟩
      rw [heq] at hsees'
      rw [StreamTranslator.take, heq]
      exact ⟨⟨r, t, hsees', .inl ⟨hsome, hr⟩⟩, hok⟩
    · exact .inl (run_next_none (openReasoning_none hsees hnone hopen))
  | text delta =>
    rcases hleft with ⟨hopen, hr⟩ | ⟨hnone, hopen, ht⟩
    · exact .inl (run_next_none (run_next_none (closeReasoning_none hsees hopen hr)))
    · have hstay : StreamTranslator.next tr.closeReasoning openText = ([], tr) := by
        obtain ⟨entry, hentry⟩ := isSome_iff_exists.mp hopen
        simp [StreamTranslator.next, closeReasoning, openText, hnone, hentry]
      have hopened : Passes r t tr.toolCalls c
          (StreamTranslator.next tr.closeReasoning openText) := by
        rw [hstay]
        exact ⟨c, rfl, hsees⟩
      obtain ⟨c', hrun, hsees'⟩ := textDelta_passes hopened delta
      obtain ⟨n, m, output, open_, hsome, heq⟩ := textDelta_snd tr delta
      refine .inr ⟨c', hrun, ?_⟩
      rw [heq] at hsees'
      rw [StreamTranslator.take, heq]
      exact ⟨⟨r, t, hsees', .inr ⟨rfl, hsome, ht⟩⟩, hok⟩
  | call call =>
    by_cases hopens : call.name ≠ [] ∧ ¬ Named tr.toolCalls call.index
    · exact .inl (toolCallDelta_none hsees hok hopens hleft)
    · obtain ⟨⟨c', hrun, hsees'⟩, hafter⟩ :=
        toolCallDelta_passes hsees hok call fun h => absurd h hopens
      obtain ⟨hreasoning, htext, -⟩ := hafter.keeps hopens
      refine .inr ⟨c', hrun, ⟨⟨r, t, hsees', ?_⟩, hafter.ok⟩⟩
      rw [Leftover, StreamTranslator.take, hreasoning, htext]
      exact hleft

/-! ### Runs of deltas -/

def namedAfter (named : List ℤ) : List Piece → List ℤ
  | [] => named
  | .call call :: pieces =>
    if call.name ≠ [] ∧ call.index ∉ named then namedAfter (call.index :: named) pieces
    else namedAfter named pieces
  | _ :: pieces => namedAfter named pieces

theorem marks_append (named : List ℤ) (pieces rest : List Piece) :
    marks named (pieces ++ rest) = marks named pieces ++ marks (namedAfter named pieces) rest := by
  induction pieces generalizing named with
  | nil => rfl
  | cons piece pieces ih =>
    cases piece with
    | reasoning delta => simp only [cons_append, marks, namedAfter, ih]
    | text delta => simp only [cons_append, marks, namedAfter, ih]
    | call call =>
      simp only [cons_append, marks, namedAfter]
      split
      · rw [ih, cons_append]
      · exact ih named

theorem orderly_append (past ms rest : List Mark) :
    Orderly past (ms ++ rest) ↔ Orderly past ms ∧ Orderly (ms.reverse ++ past) rest := by
  induction ms generalizing past with
  | nil => simp [Orderly]
  | cons mark ms ih =>
    rw [cons_append, Orderly, Orderly, ih, and_assoc, reverse_cons, append_assoc]
    rfl

theorem Breaks.next {step : List StreamEvent × StreamTranslator}
    {f : StreamTranslator → List StreamEvent × StreamTranslator} (h : Breaks c step)
    (hf : ∀ c', Doomed step.2 c' → Breaks c' (f step.2)) :
    Breaks c (StreamTranslator.next step f) := by
  rcases h with hnone | ⟨c', hrun, hdoomed⟩
  · exact .inl (run_next_none hnone)
  · rw [Breaks, Checker.run_next, hrun, bind_some]
    exact hf c' hdoomed

theorem Doomed.takeAll (h : Doomed tr c) (pieces : List Piece) : Breaks c (tr.takeAll pieces) := by
  induction pieces generalizing tr c with
  | nil => exact .inr ⟨c, rfl, h⟩
  | cons piece pieces ih => exact (h.take piece).next fun c' h' => ih h'

/-- **Orderly deltas pass**, and leave the translator as their marks say. -/
theorem Ready.takeAll (h : Ready past named tr c) {pieces : List Piece}
    (hreal : ∀ piece ∈ pieces, piece.Real) (horderly : Orderly past (marks named pieces)) :
    ∃ c', c.run (tr.takeAll pieces).1 = some c' ∧
      Ready ((marks named pieces).reverse ++ past) (namedAfter named pieces)
        (tr.takeAll pieces).2 c' := by
  induction pieces generalizing past named tr c with
  | nil => exact ⟨c, rfl, h⟩
  | cons piece pieces ih =>
    have hrest := fun p hp => hreal p (mem_cons_of_mem _ hp)
    -- one delta, and then the rest from where it leads
    have hstep : ∀ {past' named' c'}, c.run (tr.take piece).1 = some c' →
        Ready past' named' (tr.take piece).2 c' → Orderly past' (marks named' pieces) →
        ∃ c'', c.run (tr.takeAll (piece :: pieces)).1 = some c'' ∧
          Ready ((marks named' pieces).reverse ++ past') (namedAfter named' pieces)
            (tr.takeAll (piece :: pieces)).2 c'' := by
      intro past' named' c' hrun hready horder
      obtain ⟨c'', hrun', hready'⟩ := ih hready hrest horder
      refine ⟨c'', ?_, hready'⟩
      rw [StreamTranslator.takeAll, Checker.run_next, hrun, bind_some, hrun']
    cases piece with
    | reasoning delta =>
      obtain ⟨hfresh, horder⟩ := horderly
      obtain ⟨c', hrun, hready⟩ := h.reasoningDelta hfresh (hreal _ mem_cons_self)
      simpa [marks, namedAfter] using hstep hrun hready horder
    | text delta =>
      obtain ⟨hfresh, horder⟩ := horderly
      obtain ⟨c', hrun, hready⟩ := h.textDelta hfresh (hreal _ mem_cons_self)
      simpa [marks, namedAfter] using hstep hrun hready horder
    | call call =>
      obtain ⟨c', hrun, hready⟩ := h.toolCallDelta call
      rw [marks] at horderly ⊢
      rw [namedAfter]
      split at hready
      · rename_i hopens
        rw [if_pos hopens] at horderly ⊢
        rw [if_pos hopens]
        simpa using hstep hrun hready horderly.2
      · rename_i hkeeps
        rw [if_neg hkeeps] at horderly ⊢
        rw [if_neg hkeeps]
        exact hstep hrun hready horderly

/-- **Others break the stream.** -/
theorem Ready.takeAll_breaks (h : Ready past named tr c) {pieces : List Piece}
    (hreal : ∀ piece ∈ pieces, piece.Real) (hstale : ¬ Orderly past (marks named pieces)) :
    Breaks c (tr.takeAll pieces) := by
  induction pieces generalizing past named tr c with
  | nil => exact absurd trivial hstale
  | cons piece pieces ih =>
    have hrest := fun p hp => hreal p (mem_cons_of_mem _ hp)
    have hstep : ∀ {past' named' c'}, c.run (tr.take piece).1 = some c' →
        Ready past' named' (tr.take piece).2 c' → ¬ Orderly past' (marks named' pieces) →
        Breaks c (tr.takeAll (piece :: pieces)) := by
      intro past' named' c' hrun hready hnot
      rw [StreamTranslator.takeAll, Breaks, Checker.run_next, hrun, bind_some]
      exact ih hready hrest hnot
    cases piece with
    | reasoning delta =>
      by_cases hfresh : Fresh past .reasoning
      · obtain ⟨c', hrun, hready⟩ := h.reasoningDelta hfresh (hreal _ mem_cons_self)
        exact hstep hrun hready fun horder => hstale ⟨hfresh, horder⟩
      · exact (h.reasoningDelta_breaks hfresh delta).next fun c' h' => h'.takeAll pieces
    | text delta =>
      by_cases hfresh : Fresh past .text
      · obtain ⟨c', hrun, hready⟩ := h.textDelta hfresh (hreal _ mem_cons_self)
        exact hstep hrun hready fun horder => hstale ⟨hfresh, horder⟩
      · exact (h.textDelta_breaks hfresh delta).next fun c' h' => h'.takeAll pieces
    | call call =>
      obtain ⟨c', hrun, hready⟩ := h.toolCallDelta call
      rw [marks] at hstale
      split at hready
      · rename_i hopens
        rw [if_pos hopens] at hstale
        exact hstep hrun hready fun horder => hstale ⟨trivial, horder⟩
      · rename_i hkeeps
        rw [if_neg hkeeps] at hstale
        exact hstep hrun hready hstale

/-! ### Chunks -/

/-- A chunk's model and usage are taken before its deltas. -/
def StreamTranslator.heard (tr : StreamTranslator) (chunk : ChatCompletionChunk) :
    StreamTranslator :=
  { tr with
    model := (truthy tr.model).or (some chunk.model)
    usage := chunk.usage.or tr.usage }

theorem takeAll_append (tr : StreamTranslator) (pieces rest : List Piece) :
    tr.takeAll (pieces ++ rest) =
      StreamTranslator.next (tr.takeAll pieces) fun tr => tr.takeAll rest := by
  induction pieces generalizing tr with
  | nil => rfl
  | cons piece pieces ih =>
    rw [cons_append, StreamTranslator.takeAll, StreamTranslator.takeAll]
    simp only [StreamTranslator.next, ih, append_assoc]

theorem takeAll_calls (tr : StreamTranslator) (calls : List ToolCallDelta) :
    tr.takeAll (calls.map .call) = tr.toolCallDeltas calls := by
  induction calls generalizing tr with
  | nil => rfl
  | cons call calls ih =>
    rw [map_cons, StreamTranslator.takeAll, toolCallDeltas]
    simp only [StreamTranslator.next, StreamTranslator.take, ih]

theorem next_done (step : List StreamEvent × StreamTranslator) :
    (StreamTranslator.next step fun tr => ([], tr)) = step := by
  rw [StreamTranslator.next, append_nil]

theorem takeAll_reasoning (tr : StreamTranslator) (delta : ChoiceDelta) :
    tr.takeAll ((truthy delta.reasoning).toList.map .reasoning) = tr.feedReasoning delta := by
  rw [feedReasoning]
  cases truthy delta.reasoning with
  | none => rfl
  | some text => exact next_done _

theorem takeAll_text (tr : StreamTranslator) (delta : ChoiceDelta) :
    tr.takeAll (if delta.content.getD [] ++ delta.refusal.getD [] ≠ [] then
        [.text (delta.content.getD [] ++ delta.refusal.getD [])] else []) = feedText delta tr := by
  rw [feedText]
  split
  · exact next_done _
  · rfl

/-- **A chunk is its pieces**, and then its finish reason. -/
theorem feed_eq (tr : StreamTranslator) (chunk : ChatCompletionChunk) :
    tr.feed chunk = (((tr.heard chunk).takeAll chunk.pieces).1,
      { ((tr.heard chunk).takeAll chunk.pieces).2 with
        finishReason := (chunk.choices.head?.bind (·.finishReason)).or
          ((tr.heard chunk).takeAll chunk.pieces).2.finishReason }) := by
  rw [feed, ChatCompletionChunk.pieces]
  cases chunk.choices with
  | nil => rfl
  | cons choice rest =>
    have htext := fun tr : StreamTranslator => takeAll_text tr choice.delta
    simp only [takeAll_append, takeAll_calls, takeAll_reasoning, htext]
    rfl

theorem pieces_real (chunk : ChatCompletionChunk) : ∀ piece ∈ chunk.pieces, piece.Real := by
  rw [ChatCompletionChunk.pieces]
  intro piece hmem
  split at hmem
  · cases hmem
  · simp only [mem_append, mem_map, mem_toList] at hmem
    rcases hmem with (⟨text, htext, rfl⟩ | htext) | ⟨call, -, rfl⟩
    · simpa [Piece.Real] using (filter_eq_some_iff.mp htext).2
    · split at htext
      · rename_i hne
        rw [mem_singleton.mp htext]
        exact hne
      · cases htext
    · exact trivial

theorem Ready.same (h : Ready past named tr c) {tr' : StreamTranslator} (hv : SameView tr tr')
    (hcalls : tr'.toolCalls = tr.toolCalls) : Ready past named tr' c where
  sees := by
    obtain ⟨r, t, hsees, hr, ht⟩ := h.sees
    refine ⟨r, t, hsees.same hv (by rw [hcalls]), ?_, ?_⟩
    · rwa [hv.reasoning]
    · rwa [hv.text]
  calls := by rw [hcalls]; exact h.calls
  named := by rw [hcalls]; exact h.named
  reasoning := by rw [hv.reasoning]; exact h.reasoning
  text := by rw [hv.text]; exact h.text
  reasoningText := by rw [hv.reasoningText]; exact h.reasoningText
  textValue := by rw [hv.textValue]; exact h.textValue

theorem Doomed.same (h : Doomed tr c) {tr' : StreamTranslator} (hv : SameView tr tr')
    (hcalls : tr'.toolCalls = tr.toolCalls) : Doomed tr' c where
  sees := by
    obtain ⟨r, t, hsees, hleft⟩ := h.sees
    refine ⟨r, t, hsees.same hv (by rw [hcalls]), ?_⟩
    rwa [Leftover, hv.reasoning, hv.text]
  calls := by rw [hcalls]; exact h.calls

theorem heard_view (tr : StreamTranslator) (chunk : ChatCompletionChunk) :
    SameView tr (tr.heard chunk) := ⟨rfl, rfl, rfl, rfl, rfl, rfl⟩

theorem finishReason_view (tr : StreamTranslator) (finishReason : Option FinishReason) :
    SameView tr { tr with finishReason := finishReason } := ⟨rfl, rfl, rfl, rfl, rfl, rfl⟩

theorem Breaks.feed {chunk : ChatCompletionChunk}
    (h : Breaks c ((tr.heard chunk).takeAll chunk.pieces)) : Breaks c (tr.feed chunk) := by
  rw [feed_eq]
  rcases h with hnone | ⟨c', hrun, hdoomed⟩
  · exact .inl hnone
  · exact .inr ⟨c', hrun, hdoomed.same (finishReason_view _ _) rfl⟩

theorem Doomed.feedAll (h : Doomed tr c) (chunks : List ChatCompletionChunk) :
    Breaks c (tr.feedAll chunks) := by
  induction chunks generalizing tr c with
  | nil => exact .inr ⟨c, rfl, h⟩
  | cons chunk chunks ih =>
    exact ((h.same (heard_view tr chunk) rfl).takeAll chunk.pieces).feed.next fun c' h' => ih h'

theorem Ready.feedAll (h : Ready past named tr c) (chunks : List ChatCompletionChunk) :
    (Orderly past (marks named (chunks.flatMap (·.pieces))) →
      ∃ c' past' named', c.run (tr.feedAll chunks).1 = some c' ∧
        Ready past' named' (tr.feedAll chunks).2 c') ∧
    (¬ Orderly past (marks named (chunks.flatMap (·.pieces))) → Breaks c (tr.feedAll chunks)) := by
  induction chunks generalizing past named tr c with
  | nil => exact ⟨fun _ => ⟨c, past, named, rfl, h⟩, fun hnot => absurd trivial hnot⟩
  | cons chunk chunks ih =>
    rw [flatMap_cons, marks_append, orderly_append]
    have hheard := h.same (heard_view tr chunk) rfl
    by_cases hfirst : Orderly past (marks named chunk.pieces)
    · obtain ⟨c', hrun, hready⟩ := hheard.takeAll (pieces_real chunk) hfirst
      have hnext := ih (hready.same (finishReason_view _
        ((chunk.choices.head?.bind (·.finishReason)).or
          ((tr.heard chunk).takeAll chunk.pieces).2.finishReason)) rfl)
      rw [feedAll, feed_eq, Checker.run_next, hrun, bind_some, Breaks, Checker.run_next, hrun,
        bind_some]
      exact ⟨fun horder => hnext.1 horder.2, fun hnot => hnext.2 fun hrest => hnot ⟨hfirst, hrest⟩⟩
    · refine ⟨fun horder => absurd horder.1 hfirst, fun _ => ?_⟩
      exact (hheard.takeAll_breaks (pieces_real chunk) hfirst).feed.next
        fun c' h' => h'.feedAll chunks

end

/-! ### The end of a stream -/

/-- Nothing but calls is open. -/
structure OnlyCalls (tr : StreamTranslator) : Prop where
  reasoning : tr.reasoning = none
  text : tr.text = none

theorem closeToolCall_passes {k : ℤ} {state : ToolCallState} {rest : List (ℤ × ToolCallState)}
    (h : Sees r t ((k, state) :: rest) tr c) {index : ℕ}
    (hindex : state.outputIndex = some index) : Passes r t rest c (tr.closeToolCall state) := by
  have htracks := h.tracks
  rw [opens, openCalls_cons_some hindex, ← append_assoc] at htracks
  obtain ⟨hget, hdone⟩ := htracks.get _
  have hspelled := spelled_eq hget hdone state.arguments
  rw [if_pos rfl] at hspelled
  have hclosed := Tracks.close _ htracks state.item
  rw [append_assoc] at hclosed
  have hacc : acceptAll c.slots
      [.functionCallArgumentsDone state.itemId index state.name state.arguments,
        .outputItemDone index state.item] = some (c.slots.set index (closedSlot state.item)) := by
    have hfirst : accept c.slots (.functionCallArgumentsDone state.itemId index state.name
        state.arguments) = some c.slots := hspelled
    have hsecond : accept c.slots (.outputItemDone index state.item) =
        some (c.slots.set index (closedSlot state.item)) := congrArg (Option.map _) hspelled
    simp only [acceptAll, hfirst, hsecond, bind_some]
  have heq : tr.closeToolCall state = { tr with output := tr.output.set index state.item }.events
      [.functionCallArgumentsDone state.itemId index state.name state.arguments,
       .outputItemDone index state.item] := by
    simp only [closeToolCall, hindex]
  rw [heq]
  exact h.passes { tr with output := tr.output.set index state.item } _ _ rfl
    (by simp [Payload.isTerminal]) hacc h.reasoning h.text hclosed

theorem OnlyCalls.closeToolCall (h : OnlyCalls tr) (state : ToolCallState) :
    OnlyCalls (tr.closeToolCall state).2 := by
  rw [StreamTranslator.closeToolCall]
  split
  · exact h
  · rw [events_snd]
    exact ⟨h.reasoning, h.text⟩

theorem finishCall_passes {k : ℤ} {state : ToolCallState} {rest : List (ℤ × ToolCallState)}
    (h : Sees r t ((k, state) :: rest) tr c) (hcalls : OnlyCalls tr) :
    Passes r t rest c (tr.finishCall state) ∧ OnlyCalls (tr.finishCall state).2 := by
  rw [finishCall, openedCall]
  cases hindex : state.outputIndex with
  | some index =>
    have hpass : Passes r t ((k, state) :: rest) c ([], tr) := ⟨c, rfl, h⟩
    exact ⟨hpass.next fun c' h' => closeToolCall_passes h' hindex, hcalls.closeToolCall state⟩
  | none =>
    obtain ⟨callId, index, hstate⟩ := openToolCall_fst tr state
    obtain ⟨n, m, output, hafter⟩ := openToolCall_snd tr state
    have hrest : Sees r t ([] ++ rest) tr c :=
      h.same (.refl tr) (openCalls_cons_none hindex rest).symm
    have hopened :=
      openToolCall_passes hrest (absent hcalls.reasoning) (absent hcalls.text) k state
    have hindex' : (tr.openToolCall state).1.outputIndex = some index := by rw [hstate]
    have honly : OnlyCalls (tr.openToolCall state).2.2 := by
      rw [hafter]
      exact ⟨rfl, rfl⟩
    exact ⟨hopened.next fun c' h' => closeToolCall_passes h' hindex', honly.closeToolCall _⟩

theorem finishCalls_passes (h : Sees r t calls tr c) (hcalls : OnlyCalls tr) :
    Passes r t [] c (tr.finishCalls (calls.map Prod.snd)) ∧
      OnlyCalls (tr.finishCalls (calls.map Prod.snd)).2 := by
  induction calls generalizing tr c with
  | nil => exact ⟨⟨c, rfl, h⟩, hcalls⟩
  | cons entry calls ih =>
    obtain ⟨⟨c', hrun, hsees⟩, hcalls'⟩ := finishCall_passes h hcalls
    obtain ⟨⟨c'', hrun', hsees'⟩, hcalls''⟩ := ih hsees hcalls'
    refine ⟨⟨c'', ?_, hsees'⟩, hcalls''⟩
    rw [map_cons, finishCalls, Checker.run_next, hrun, bind_some, hrun']

theorem terminal_passes (h : Sees r t [] tr c) (hcalls : OnlyCalls tr) :
    (c.run tr.terminal.1).map (·.finished) = some true := by
  have htracks := h.tracks
  rw [opens, reasoningSlots, textSlots, hcalls.reasoning, hcalls.text] at htracks
  have hall : c.slots.map (·.done) = tr.output.map some := by
    rw [htracks.all_closed, map_map]
    rfl
  have hstep : ∀ response : Response, response.output = tr.output → ∀ payload,
      payload = .completed response ∨ payload = .incomplete response →
      (c.run [⟨tr.sequence, payload⟩]).map (·.finished) = some true := by
    rintro response hout payload (rfl | rfl)
    · rw [Checker.run, Checker.step, if_pos ⟨h.sequence.symm, h.running⟩, accept, hout,
        if_pos hall]
      rfl
    · rw [Checker.run, Checker.step, if_pos ⟨h.sequence.symm, h.running⟩, accept, hout,
        if_pos hall]
      rfl
  rw [terminal]
  refine hstep (tr.snapshot .completed) rfl _ ?_
  split
  · exact .inr rfl
  · exact .inl rfl

section
variable {past : List Mark} {named : List ℤ}

theorem Ready.finish (h : Ready past named tr c) :
    (c.run tr.finish.1).map (·.finished) = some true := by
  obtain ⟨r, t, hsees, hr, ht⟩ := h.sees
  obtain ⟨c', hrun, hsees'⟩ := closeBoth_passes hsees hr ht
  obtain ⟨n, output, heq⟩ := closeBoth_snd tr
  have hcalls : (StreamTranslator.next tr.closeReasoning closeText).2.toolCalls = tr.toolCalls := by
    rw [heq]
  rw [← hcalls] at hsees'
  obtain ⟨⟨c'', hrun', hsees''⟩, honly⟩ :=
    finishCalls_passes hsees' ⟨by rw [heq], by rw [heq]⟩
  rw [StreamTranslator.finish, Checker.run_next, Checker.run_next, hrun, bind_some, hrun',
    bind_some]
  exact terminal_passes hsees'' honly

theorem Doomed.finish (h : Doomed tr c) : c.run tr.finish.1 = none := by
  obtain ⟨r, t, hsees, hleft⟩ := h.sees
  exact run_next_none (run_next_none (closeBoth_none hsees hleft))

end

/-- **Which streams are well formed.**  The events of a stream of chunks are, exactly where no delta
goes back to a text or reasoning item that another item came after, and no reasoning item is begun
right after a text. -/
theorem stream_wellFormed_iff (echo : ResponseEcho) (now : ℚ) (chunks : List ChatCompletionChunk) :
    WellFormed (streamEvents echo now chunks) ↔
      Orderly [] (marks [] (chunks.flatMap (·.pieces))) := by
  let tr : StreamTranslator := { echo := echo, createdAt := now }
  have hstart : Checker.run {} tr.start.1 = some ⟨2, [], false⟩ := rfl
  have hready : Ready [] [] tr.start.2 ⟨2, [], false⟩ := {
    sees := ⟨0, 0, ⟨rfl, rfl, Nat.zero_le _, Nat.zero_le _, ⟨rfl, List.nodup_nil,
      fun _ hmem => absurd hmem List.not_mem_nil, fun _ _ => rfl⟩⟩, fun _ => rfl, fun _ => rfl⟩
    calls := ⟨List.nodup_nil, fun _ hmem => absurd hmem List.not_mem_nil⟩
    named := fun k => ⟨fun hmem => absurd hmem List.not_mem_nil,
      fun ⟨_, hmem, _⟩ => absurd hmem List.not_mem_nil⟩
    reasoning := by simp [tr, StreamTranslator.start]
    text := by simp [tr, StreamTranslator.start]
    reasoningText := by simp [tr, StreamTranslator.start]
    textValue := by simp [tr, StreamTranslator.start] }
  obtain ⟨hpass, hbreak⟩ := hready.feedAll chunks
  have hrun : Checker.run {} (streamEvents echo now chunks) =
      ((Checker.mk 2 [] false).run (tr.start.2.feedAll chunks).1).bind fun c =>
        c.run (tr.start.2.feedAll chunks).2.finish.1 := by
    rw [streamEvents, Checker.run_next, Checker.run_next, hstart]
    rfl
  rw [WellFormed, hrun]
  constructor
  · intro hwell
    by_contra hstale
    rcases hbreak hstale with hnone | ⟨c', hrun', hdoomed⟩
    · rw [hnone] at hwell
      cases hwell
    · rw [hrun', Option.bind_some, hdoomed.finish] at hwell
      cases hwell
  · intro horder
    obtain ⟨c', past', named', hrun', hready'⟩ := hpass horder
    rw [hrun', Option.bind_some]
    exact hready'.finish

def sampleEcho : ResponseEcho := { model := ['m'] }

def sampleChunk (delta : ChoiceDelta) : ChatCompletionChunk :=
  { model := ['m'], choices := [{ delta := delta }] }

def sampleCall : ToolCallDelta :=
  { index := 0, id := some ['c'], function := some ⟨some ['f'], some ['x']⟩ }

def reopenedText : List ChatCompletionChunk :=
  [sampleChunk { content := some ['a'] }, sampleChunk { toolCalls := [sampleCall] },
    sampleChunk { content := some ['b'] }]

/-- The second text item is done with the first one's text before its own. -/
theorem reopened_text_repeats : ¬ WellFormed (streamEvents sampleEcho 0 reopenedText) ∧
      .outputTextDone (.minted .msg 3) 2 0 ['a', 'b'] ∈
        (streamEvents sampleEcho 0 reopenedText).map (·.payload) := by
  decide

end Otari.Bridge

import Otari.Bridge.ResponsesItems

/-!
# Bridge — ResponsesCalls — what the check says of the tool calls

A tool-call delta opens its call's item, keeps what it says of a call without a name, or goes on
with the item (`toolCallDelta_cases`).  Only the first closes the text or the reasoning item, so
only there can it fail (`toolCallDelta_passes`, `toolCallDelta_none`).
-/

namespace Otari.Bridge
open StreamTranslator List

variable {r t : ℕ} {calls : List (ℤ × ToolCallState)} {tr : StreamTranslator} {c : Checker}

/-! ### Tool calls -/

theorem openCalls_append (calls calls' : List (ℤ × ToolCallState)) :
    openCalls (calls ++ calls') = openCalls calls ++ openCalls calls' :=
  filterMap_append ..

variable {k : ℤ} {state : ToolCallState}

theorem openCalls_cons_none (h : state.outputIndex = none)
    (calls : List (ℤ × ToolCallState)) : openCalls ((k, state) :: calls) = openCalls calls := by
  rw [openCalls, filterMap_cons, h]
  rfl

theorem openCalls_cons_some {index : ℕ}
    (h : state.outputIndex = some index) (calls : List (ℤ × ToolCallState)) :
    openCalls ((k, state) :: calls) =
      (index, ⟨state.itemId, .functionCall, state.arguments, none⟩) :: openCalls calls := by
  rw [openCalls, filterMap_cons, h]
  rfl

theorem nameCall_eq (tr : StreamTranslator) (state : ToolCallState) : ∃ callId n,
    tr.nameCall state = ({ state with callId := callId }, { tr with minted := n }) := by
  rw [nameCall]
  split
  · exact ⟨_, _, rfl⟩
  · exact ⟨state.callId, tr.minted, rfl⟩

theorem addToolCall_eq (tr : StreamTranslator) (state : ToolCallState) : ∃ callId n,
    tr.addToolCall state =
      let item := OutputItem.functionCall state.itemId callId state.name [] .inProgress
      ({ state with callId := callId, outputIndex := some tr.output.length },
        { tr with minted := n, output := tr.output ++ [item] }.events
          (openingEvents state tr.output.length item)) := by
  obtain ⟨callId, n, heq⟩ := nameCall_eq tr state
  refine ⟨callId, n, ?_⟩
  rw [addToolCall, heq]
  rfl

theorem openingEvents_isTerminal (state : ToolCallState) (index : ℕ) (item : OutputItem) :
    ∀ payload ∈ openingEvents state index item, payload.isTerminal = false := by
  intro payload hmem
  rcases mem_cons.mp hmem with rfl | hmem
  · rfl
  · split at hmem
    · rw [mem_singleton.mp hmem]
      rfl
    · cases hmem

theorem acceptAll_opening {slots : List Slot} (hsettled : Settled slots) (state : ToolCallState)
    {item : OutputItem} (hid : item.id = state.itemId) (hkind : item.kind = .functionCall) :
    acceptAll slots (openingEvents state slots.length item) =
      some (slots ++ [⟨state.itemId, .functionCall, state.arguments, none⟩]) := by
  rw [openingEvents, acceptAll, accept, if_pos ⟨rfl, hsettled⟩, Option.bind_some, hid, hkind]
  split
  · have hget : (slots ++ [(⟨state.itemId, .functionCall, [], none⟩ : Slot)])[slots.length]? =
        some ⟨state.itemId, .functionCall, [], none⟩ := List.getElem?_concat_length ..
    have hspell := spell_eq hget rfl state.arguments
    rw [set_append_right _ _ le_rfl, Nat.sub_self] at hspell
    exact congrArg (Option.bind · _) hspell
  · rename_i hargs
    rw [not_not] at hargs
    rw [acceptAll, hargs]

variable {earlier later : List (ℤ × ToolCallState)}

theorem addToolCall_passes
    (h : Sees r t (earlier ++ later) tr c) (hr : tr.reasoning = none) (ht : tr.text = none)
    (k : ℤ) (state : ToolCallState) :
    Passes r t (earlier ++ (k, (tr.addToolCall state).1) :: later) c (tr.addToolCall state).2 := by
  have htracks := h.tracks
  rw [opens, reasoningSlots, textSlots, hr, ht, openCalls_append] at htracks
  obtain ⟨callId, n, heq⟩ := addToolCall_eq tr state
  have hacc := acceptAll_opening (h.settled hr ht) state
    (show (OutputItem.functionCall state.itemId callId state.name [] .inProgress).id = _ from rfl)
    rfl
  rw [htracks.length] at hacc
  rw [heq]
  refine h.passes { tr with
      minted := n
      output := tr.output ++ [.functionCall state.itemId callId state.name [] .inProgress] } _ _ rfl
    (openingEvents_isTerminal _ _ _) hacc h.reasoning h.text ?_
  rw [opens, reasoningSlots, textSlots, hr, ht, openCalls_append, openCalls_cons_some rfl]
  exact Tracks.add (openCalls earlier) htracks _ _ rfl

theorem openToolCall_passes
    (h : Sees r t (earlier ++ later) tr c) (hr : tr.reasoning.isSome = true → r = 0)
    (ht : tr.text.isSome = true → t = 0) (k : ℤ) (state : ToolCallState) :
    Passes r t (earlier ++ (k, (tr.openToolCall state).1) :: later) c (tr.openToolCall state).2 := by
  obtain ⟨c', hrun, hsees⟩ := closeBoth_passes h hr ht
  obtain ⟨n, output, heq⟩ := closeBoth_snd tr
  obtain ⟨c'', hrun', hsees'⟩ := addToolCall_passes hsees (by rw [heq]) (by rw [heq]) k state
  refine ⟨c'', ?_, hsees'⟩
  rw [openToolCall, Checker.run_append, hrun, Option.bind_some, hrun']

theorem openToolCall_none (h : Sees r t calls tr c) (hleft : tr.reasoning.isSome = true ∧ 0 < r ∨
      tr.reasoning = none ∧ tr.text.isSome = true ∧ 0 < t) (state : ToolCallState) :
    c.run (tr.openToolCall state).2.1 = none := by
  rw [openToolCall, Checker.run_append, closeBoth_none h hleft]
  rfl

theorem openToolCall_fst (tr : StreamTranslator) (state : ToolCallState) :
    ∃ callId index, (tr.openToolCall state).1 =
      { state with callId := callId, outputIndex := some index } := by
  obtain ⟨callId, n, heq⟩ :=
    addToolCall_eq (StreamTranslator.next tr.closeReasoning closeText).2 state
  rw [openToolCall, heq]
  exact ⟨_, _, rfl⟩

theorem openToolCall_snd (tr : StreamTranslator) (state : ToolCallState) :
    ∃ n m output, (tr.openToolCall state).2.2 = { tr with
      reasoning := none, text := none, sequence := n, minted := m, output := output } := by
  obtain ⟨n, output, hclosed⟩ := closeBoth_snd tr
  obtain ⟨callId, m, heq⟩ :=
    addToolCall_eq (StreamTranslator.next tr.closeReasoning closeText).2 state
  rw [openToolCall, heq]
  simp only [events_snd, hclosed]
  exact ⟨_, _, _, rfl⟩

/-- What holds of the calls: an index has one state, and one without an item has no name yet. -/
structure CallsOk (calls : List (ℤ × ToolCallState)) : Prop where
  nodup : (calls.map Prod.fst).Nodup
  unnamed : ∀ entry ∈ calls, entry.2.outputIndex = none → entry.2.name = []

def Named (calls : List (ℤ × ToolCallState)) (k : ℤ) : Prop :=
  ∃ state, (k, state) ∈ calls ∧ state.outputIndex.isSome = true

theorem toolCallState_spec (h : CallsOk tr.toolCalls) (k : ℤ) :
    ∃ earlier later n, (tr.toolCallState k).2 = { tr with
        minted := n, toolCalls := earlier ++ (k, (tr.toolCallState k).1) :: later } ∧
      CallsOk (earlier ++ (k, (tr.toolCallState k).1) :: later) ∧
      openCalls (earlier ++ (k, (tr.toolCallState k).1) :: later) = openCalls tr.toolCalls ∧
      ∀ k', Named (earlier ++ (k, (tr.toolCallState k).1) :: later) k' ↔ Named tr.toolCalls k' := by
  rw [toolCallState]
  dsimp only [newId]
  split
  · rename_i state hlookup
    obtain ⟨earlier, later, hcalls, -⟩ := lookup_eq_some_iff.mp hlookup
    refine ⟨earlier, later, tr.minted + 1, ?_, ?_, ?_, ?_⟩
    · rw [hcalls]
    · rwa [hcalls] at h
    · rw [hcalls]
    · rw [hcalls]
      exact fun _ => Iff.rfl
  · rename_i hlookup
    rw [lookup_eq_none_iff] at hlookup
    refine ⟨tr.toolCalls, [], tr.minted + 1, rfl, ⟨?_, ?_⟩, ?_, ?_⟩
    · rw [map_append, map_cons, map_nil, ← concat_eq_append,
        nodup_concat]
      refine ⟨fun hmem => ?_, h.nodup⟩
      obtain ⟨entry, hentry, heq⟩ := mem_map.mp hmem
      have hne := hlookup entry hentry
      simp [heq] at hne
    · intro entry hmem hnone
      rcases mem_append.mp hmem with hold | hnew
      · exact h.unnamed entry hold hnone
      · rw [mem_singleton.mp hnew]
    · rw [openCalls_append, openCalls_cons_none rfl]
      exact append_nil _
    · intro k'
      constructor
      · rintro ⟨state, hmem, hsome⟩
        rcases mem_append.mp hmem with hold | hnew
        · exact ⟨state, hold, hsome⟩
        · cases mem_singleton.mp hnew
          cases hsome
      · rintro ⟨state, hmem, hsome⟩
        exact ⟨state, mem_append_left _ hmem, hsome⟩

theorem putCall_eq {old : ToolCallState}
    (h : CallsOk (earlier ++ (k, old) :: later)) (hcalls : tr.toolCalls = earlier ++ (k, old) :: later)
    (state : ToolCallState) :
    tr.putCall k state = { tr with toolCalls := earlier ++ (k, state) :: later } := by
  have hnd := h.nodup
  rw [map_append, map_cons, nodup_middle, nodup_cons] at hnd
  have hkeep : ∀ calls : List (ℤ × ToolCallState), k ∉ calls.map Prod.fst →
      (calls.map fun entry => if entry.1 = k then (k, state) else entry) = calls := by
    intro calls hk
    refine (map_congr_left fun entry hmem => ?_).trans (map_id calls)
    have hne : ¬ entry.1 = k := fun heq => hk (heq ▸ mem_map_of_mem hmem)
    rw [if_neg hne]
    rfl
  rw [putCall, hcalls, map_append, map_cons, if_pos rfl,
    hkeep _ fun hmem => hnd.1 (mem_append_left _ hmem),
    hkeep _ fun hmem => hnd.1 (mem_append_right _ hmem)]

theorem CallsOk.put {old : ToolCallState} (h : CallsOk (earlier ++ (k, old) :: later))
    (hname : state.outputIndex = none → state.name = []) :
    CallsOk (earlier ++ (k, state) :: later) where
  nodup := by simpa using h.nodup
  unnamed entry hmem hnone := by
    rcases mem_append.mp hmem with hbefore | hafter
    · exact h.unnamed entry (mem_append_left _ hbefore) hnone
    · rcases mem_cons.mp hafter with rfl | hafter
      · exact hname hnone
      · exact h.unnamed entry (mem_append_right _ (mem_cons_of_mem _ hafter)) hnone

theorem named_put {k' : ℤ} : Named (earlier ++ (k, state) :: later) k' ↔
      (k' = k ∧ state.outputIndex.isSome = true) ∨ Named (earlier ++ later) k' := by
  constructor
  · rintro ⟨state', hmem, hsome⟩
    rcases mem_append.mp hmem with hbefore | hafter
    · exact .inr ⟨state', mem_append_left _ hbefore, hsome⟩
    · rcases mem_cons.mp hafter with heq | hafter
      · cases heq
        exact .inl ⟨rfl, hsome⟩
      · exact .inr ⟨state', mem_append_right _ hafter, hsome⟩
  · rintro (⟨rfl, hsome⟩ | ⟨state', hmem, hsome⟩)
    · exact ⟨state, by simp, hsome⟩
    · refine ⟨state', ?_, hsome⟩
      simp only [mem_append, mem_cons] at hmem ⊢
      tauto

/-- What the delta of a call works on: the translator with the call's state in its place. -/
structure Working (tr tr' : StreamTranslator) (earlier later : List (ℤ × ToolCallState)) (k : ℤ)
    (state : ToolCallState) : Prop where
  translator : ∃ n, tr' = { tr with minted := n, toolCalls := earlier ++ (k, state) :: later }
  ok : CallsOk (earlier ++ (k, state) :: later)
  opened : openCalls (earlier ++ (k, state) :: later) = openCalls tr.toolCalls
  named : ∀ k', Named (earlier ++ (k, state) :: later) k' ↔ Named tr.toolCalls k'

theorem Working.named_iff {tr' : StreamTranslator} (h : Working tr tr' earlier later k state) :
    Named tr.toolCalls k ↔ state.outputIndex.isSome = true := by
  rw [← h.named, named_put]
  constructor
  · rintro (⟨-, hsome⟩ | ⟨other, hmem, -⟩)
    · exact hsome
    · have hnd := h.ok.nodup
      rw [map_append, map_cons, nodup_middle, nodup_cons, ← map_append]
        at hnd
      exact absurd (mem_map_of_mem hmem) hnd.1
  · exact fun hsome => .inl ⟨rfl, hsome⟩

/-- **What the delta of a call does**: it opens the call's item, keeps what it says of a call still
without a name, or goes on with the item. -/
theorem toolCallDelta_cases (hok : CallsOk tr.toolCalls) (call : ToolCallDelta) :
    ∃ tr' earlier later state, Working tr tr' earlier later call.index state ∧
      ((state.outputIndex = none ∧ call.name ≠ [] ∧ tr.toolCallDelta call =
          ((tr'.openToolCall (state.extend call)).2.1,
            (tr'.openToolCall (state.extend call)).2.2.putCall call.index
              (tr'.openToolCall (state.extend call)).1)) ∨
        (state.outputIndex = none ∧ call.name = [] ∧
          tr.toolCallDelta call = ([], tr'.putCall call.index (state.extend call))) ∨
        ∃ index, state.outputIndex = some index ∧ tr.toolCallDelta call =
          (tr'.putCall call.index (state.extend call)).events
            (if call.fragment = [] then []
              else [.functionCallArgumentsDelta state.itemId index call.fragment])) := by
  obtain ⟨earlier, later, n, htr, hcalls, hopened, hnamed⟩ := toolCallState_spec hok call.index
  refine ⟨(tr.toolCallState call.index).2, earlier, later, (tr.toolCallState call.index).1,
    ⟨⟨n, htr⟩, hcalls, hopened, hnamed⟩, ?_⟩
  have hname : (tr.toolCallState call.index).1.outputIndex = none →
      ((tr.toolCallState call.index).1.extend call).name = call.name := by
    intro hnone
    have hempty := hcalls.unnamed (call.index, (tr.toolCallState call.index).1) (by simp) hnone
    simp only at hempty
    rw [ToolCallState.extend]
    dsimp only
    rw [if_pos hempty]
  rw [toolCallDelta]
  cases hindex : (tr.toolCallState call.index).1.outputIndex with
  | none =>
    have hindex' : ((tr.toolCallState call.index).1.extend call).outputIndex = none := hindex
    simp only [hindex', hname hindex]
    by_cases hempty : call.name = []
    · exact .inr (.inl ⟨trivial, hempty, by simp [hempty]⟩)
    · exact .inl ⟨trivial, hempty, by simp [hempty]⟩
  | some index =>
    have hindex' : ((tr.toolCallState call.index).1.extend call).outputIndex = some index :=
      hindex
    simp only [hindex']
    exact .inr (.inr ⟨index, rfl, rfl⟩)

/-- What a tool-call delta leaves of the translator: the text and reasoning closed if it opened its
call, the calls sound, and its index named if it opened. -/
structure AfterCall (tr tr' : StreamTranslator) (call : ToolCallDelta) : Prop where
  reasoningText : tr'.reasoningText = tr.reasoningText
  textValue : tr'.textValue = tr.textValue
  ok : CallsOk tr'.toolCalls
  opens : call.name ≠ [] ∧ ¬ Named tr.toolCalls call.index →
    tr'.reasoning = none ∧ tr'.text = none ∧
      ∀ k, Named tr'.toolCalls k ↔ k = call.index ∨ Named tr.toolCalls k
  keeps : ¬ (call.name ≠ [] ∧ ¬ Named tr.toolCalls call.index) →
    tr'.reasoning = tr.reasoning ∧ tr'.text = tr.text ∧
      ∀ k, Named tr'.toolCalls k ↔ Named tr.toolCalls k

/-- What the check sees of two translators is the same. -/
structure SameView (tr tr' : StreamTranslator) : Prop where
  sequence : tr'.sequence = tr.sequence
  output : tr'.output = tr.output
  reasoning : tr'.reasoning = tr.reasoning
  reasoningText : tr'.reasoningText = tr.reasoningText
  text : tr'.text = tr.text
  textValue : tr'.textValue = tr.textValue

theorem SameView.refl (tr : StreamTranslator) : SameView tr tr := ⟨rfl, rfl, rfl, rfl, rfl, rfl⟩

theorem SameView.withCalls (tr : StreamTranslator) (calls : List (ℤ × ToolCallState)) :
    SameView tr { tr with toolCalls := calls } := ⟨rfl, rfl, rfl, rfl, rfl, rfl⟩

theorem Sees.same (h : Sees r t calls tr c) {tr' : StreamTranslator} (hv : SameView tr tr')
    {calls' : List (ℤ × ToolCallState)} (heq : openCalls calls' = openCalls calls) :
    Sees r t calls' tr' c where
  sequence := h.sequence.trans hv.sequence.symm
  running := h.running
  reasoning := by rw [hv.reasoningText]; exact h.reasoning
  text := by rw [hv.textValue]; exact h.text
  tracks := by
    have htracks := h.tracks
    rw [opens, reasoningSlots, textSlots] at htracks ⊢
    rwa [hv.output, hv.reasoning, hv.reasoningText, hv.text, hv.textValue, heq]

theorem spellCall_passes {index : ℕ} (h : Sees r t (earlier ++ (k, state) :: later) tr c)
    (hindex : state.outputIndex = some index) (call : ToolCallDelta) :
    Passes r t (earlier ++ (k, state.extend call) :: later) c
      (tr.events (if call.fragment = [] then []
        else [.functionCallArgumentsDelta state.itemId index call.fragment])) := by
  have htracks := h.tracks
  rw [opens, openCalls_append, openCalls_cons_some hindex, ← append_assoc,
    ← append_assoc] at htracks
  obtain ⟨hget, hdone⟩ := htracks.get _
  have hspelled := Tracks.spell _ htracks ⟨state.itemId, .functionCall,
    state.arguments ++ call.fragment, none⟩ rfl
  have hopens : tr.opens r t (earlier ++ (k, state.extend call) :: later) =
      tr.reasoningSlots r ++ tr.textSlots t ++ openCalls earlier ++
        (index, ⟨state.itemId, .functionCall,
          state.arguments ++ call.fragment, none⟩) ::
            openCalls later := by
    have hindex' : (state.extend call).outputIndex = some index := hindex
    rw [opens, openCalls_append, openCalls_cons_some hindex', append_assoc,
      append_assoc]
    rfl
  split
  · rename_i hempty
    refine ⟨c, rfl, h.same (.refl tr) ?_⟩
    have hindex' : (state.extend call).outputIndex = some index := hindex
    have hargs : (state.extend call).arguments = state.arguments := by
      rw [ToolCallState.extend]
      dsimp only
      rw [hempty, append_nil]
    rw [openCalls_append, openCalls_append, openCalls_cons_some hindex,
      openCalls_cons_some hindex', hargs]
    rfl
  · refine h.passes tr _ _ rfl (by simp [Payload.isTerminal]) ?_ h.reasoning h.text
      (hopens ▸ hspelled)
    exact congrArg (Option.bind · _) (spell_eq hget hdone _)

/-- A tool-call delta passes, unless it opens its call where the text or reasoning to close spelled
less than its buffer. -/
theorem toolCallDelta_passes (h : Sees r t tr.toolCalls tr c) (hok : CallsOk tr.toolCalls)
    (call : ToolCallDelta) (hclose : call.name ≠ [] ∧ ¬ Named tr.toolCalls call.index →
      (tr.reasoning.isSome = true → r = 0) ∧ (tr.text.isSome = true → t = 0)) :
    Passes r t (tr.toolCallDelta call).2.toolCalls c (tr.toolCallDelta call) ∧
      AfterCall tr (tr.toolCallDelta call).2 call := by
  obtain ⟨tr', earlier, later, state, hw, hcase⟩ := toolCallDelta_cases hok call
  obtain ⟨n, htr⟩ := hw.translator
  have hview : SameView tr tr' := by
    rw [htr]
    exact ⟨rfl, rfl, rfl, rfl, rfl, rfl⟩
  have hcalls : tr'.toolCalls = earlier ++ (call.index, state) :: later := by rw [htr]
  have hput := putCall_eq hw.ok hcalls (state.extend call)
  have hsees := h.same hview hw.opened
  have hunchanged : (state.extend call).outputIndex = state.outputIndex := rfl
  rcases hcase with ⟨hnone, hname, heq⟩ | ⟨hnone, hname, heq⟩ | ⟨index, hsome, heq⟩
  · have hunnamed : ¬ Named tr.toolCalls call.index := by
      rw [hw.named_iff, hnone]
      exact Bool.false_ne_true
    obtain ⟨hr, ht⟩ := hclose ⟨hname, hunnamed⟩
    have hrest : Sees r t (earlier ++ later) tr' c := hsees.same (.refl tr')
      (by rw [openCalls_append, openCalls_append, openCalls_cons_none hnone])
    obtain ⟨c', hrun, hsees'⟩ := openToolCall_passes hrest (hview.reasoning ▸ hr)
      (hview.text ▸ ht) call.index (state.extend call)
    obtain ⟨callId, index, hstate⟩ := openToolCall_fst tr' (state.extend call)
    obtain ⟨n', m, output, hafter⟩ := openToolCall_snd tr' (state.extend call)
    rw [heq, putCall_eq hw.ok (by rw [hafter, hcalls])]
    refine ⟨⟨c', hrun, hsees'.same (.withCalls _ _) rfl⟩, ?_⟩
    rw [hafter]
    refine ⟨hview.reasoningText, hview.textValue, hw.ok.put fun hidx => ?_,
      fun _ => ⟨rfl, rfl, fun k => ?_⟩, fun hnot => absurd ⟨hname, hunnamed⟩ hnot⟩
    · rw [hstate] at hidx
      cases hidx
    · rw [← hw.named, named_put, named_put, hstate, hnone]
      simp
  · have hkeeps : ∀ entry, (call.index, state.extend call) = entry → entry.2.name = [] := by
      rintro entry rfl
      have hempty := hw.ok.unnamed (call.index, state) (by simp) hnone
      dsimp only at hempty
      rw [ToolCallState.extend]
      dsimp only
      rw [if_pos hempty]
      exact hname
    rw [heq, hput]
    refine ⟨⟨c, rfl, hsees.same (.withCalls _ _) ?_⟩, hview.reasoningText,
      hview.textValue, hw.ok.put fun _ => hkeeps _ rfl, fun hopens => absurd hname hopens.1,
      fun _ => ⟨hview.reasoning, hview.text, fun k => ?_⟩⟩
    · rw [openCalls_append, openCalls_append, openCalls_cons_none hnone,
        openCalls_cons_none (hunchanged.trans hnone)]
    · rw [← hw.named, named_put, named_put, hunchanged]
  · have hnamed : Named tr.toolCalls call.index := by
      rw [hw.named_iff, hsome]
      rfl
    obtain ⟨c', hrun, hsees'⟩ := spellCall_passes
      (hsees.same (.withCalls tr' (earlier ++ (call.index, state.extend call) :: later)) rfl)
      hsome call
    rw [heq, hput]
    refine ⟨⟨c', hrun, ?_⟩, ?_⟩
    · rw [events_snd] at hsees' ⊢
      exact hsees'
    · rw [events_snd]
      refine ⟨hview.reasoningText, hview.textValue, hw.ok.put fun hidx => ?_,
        fun hopens => absurd hnamed hopens.2, fun _ => ⟨hview.reasoning, hview.text, fun k => ?_⟩⟩
      · rw [hunchanged, hsome] at hidx
        cases hidx
      · rw [← hw.named, named_put, named_put, hunchanged]

/-- Some item open now spelled less than its buffer, and closing what is open comes to it. -/
def Leftover (r t : ℕ) (tr : StreamTranslator) : Prop :=
  tr.reasoning.isSome = true ∧ 0 < r ∨ tr.reasoning = none ∧ tr.text.isSome = true ∧ 0 < t

theorem toolCallDelta_none (h : Sees r t tr.toolCalls tr c) (hok : CallsOk tr.toolCalls)
    {call : ToolCallDelta} (hopens : call.name ≠ [] ∧ ¬ Named tr.toolCalls call.index)
    (hleft : Leftover r t tr) : c.run (tr.toolCallDelta call).1 = none := by
  obtain ⟨tr', earlier, later, state, hw, hcase⟩ := toolCallDelta_cases hok call
  obtain ⟨n, htr⟩ := hw.translator
  have hview : SameView tr tr' := by
    rw [htr]
    exact ⟨rfl, rfl, rfl, rfl, rfl, rfl⟩
  have hnone : state.outputIndex = none := by
    have hunnamed := hopens.2
    rw [hw.named_iff] at hunnamed
    simpa using hunnamed
  rcases hcase with ⟨-, -, heq⟩ | ⟨-, hname, -⟩ | ⟨index, hsome, -⟩
  · rw [heq]
    refine openToolCall_none (h.same hview hw.opened) ?_ (state.extend call)
    rw [hview.reasoning, hview.text]
    exact hleft
  · exact absurd hname hopens.1
  · rw [hnone] at hsome
    cases hsome

end Otari.Bridge

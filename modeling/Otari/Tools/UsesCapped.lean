import Otari.Tools.ToolLoop

/-!
# Tools — UsesCapped — no tool is used past its cap

Each step of a loop is one event on the log of what it ran and refused, and the budget is what the
log leaves of the caps (`CapsKept`).  The loop over a round's calls keeps that (`executeCalls_kept`),
hence the loops of every format and the attempts of a request do; `uses_capped` reads off it that a
tool succeeds as often as its cap at most, and is refused exactly when it has.
-/

namespace Otari.Tools
open List

/-! ### Successes -/

def ToolEvent.name : ToolEvent → String
  | .refused name => name
  | .ran name _ => name

/-- A call of the tool that did not fail, which is what is billed. -/
def ToolEvent.succeeds (name : String) : ToolEvent → Bool
  | .ran name' (some text) => name' = name && !isToolError text
  | _ => false

def successes (name : String) (log : List ToolEvent) : ℕ := log.countP (·.succeeds name)

theorem successes_concat (name : String) (log : List ToolEvent) (event : ToolEvent) :
    successes name (log ++ [event]) = successes name log + if event.succeeds name then 1 else 0 := by
  simp [successes, countP_append, countP_singleton]

/-- The cap lets the event come after the log: a refusal where it is spent, a run where it is not. -/
def ToolEvent.Allowed (caps : List (String × ℕ)) (log : List ToolEvent) : ToolEvent → Prop
  | .refused name => ∃ cap, caps.lookup name = some cap ∧ successes name log = cap
  | .ran name _ => ∀ cap, caps.lookup name = some cap → successes name log < cap

/-- The calls that are left of the caps, by the budget. -/
def leftOf (budget : Option ToolUseBudget) (name : String) : Option ℤ :=
  budget.bind (·.remaining name)

/-- The budget is what the log leaves of the caps, which let every event of it come. -/
structure CapsKept (caps : List (String × ℕ)) (budget : Option ToolUseBudget)
    (log : List ToolEvent) : Prop where
  left : ∀ name, leftOf budget name =
    (caps.lookup name).map fun cap : ℕ => (cap : ℤ) - successes name log
  allowed : ∀ before event after, log = before ++ event :: after → event.Allowed caps before

variable {caps : List (String × ℕ)} {budget : Option ToolUseBudget} {log : List ToolEvent}

theorem CapsKept.start (caps : List (String × ℕ)) : CapsKept caps (useBudget caps) [] := by
  refine ⟨fun name => ?_, fun before event after h => absurd h (by simp)⟩
  cases caps with
  | nil => rfl
  | cons cap caps =>
    simp only [useBudget, isEmpty_cons, Bool.false_eq_true, if_false, leftOf, Option.bind_some,
      ToolUseBudget.start, successes, countP_nil, Nat.cast_zero, sub_zero]
    rfl

theorem CapsKept.concat (h : CapsKept caps budget log) {budget' : Option ToolUseBudget}
    {event : ToolEvent} (hallowed : event.Allowed caps log) (hleft : ∀ name, leftOf budget' name =
      (caps.lookup name).map fun cap : ℕ => (cap : ℤ) - successes name (log ++ [event])) :
    CapsKept caps budget' (log ++ [event]) := by
  refine ⟨hleft, fun before event' after hlog => ?_⟩
  rcases eq_nil_or_concat after with rfl | ⟨rest, last, rfl⟩
  · obtain ⟨rfl, hevent⟩ := append_inj' hlog rfl
    rw [← singleton_inj.mp hevent]
    exact hallowed
  · rw [concat_eq_append, ← cons_append, ← append_assoc] at hlog
    exact h.allowed before event' rest (append_inj' hlog rfl).1

theorem CapsKept.bounded (h : CapsKept caps budget log) {name : String} {cap : ℕ}
    (hcap : caps.lookup name = some cap) : successes name log ≤ cap := by
  have hprefix : ∀ before after, log = before ++ after → successes name before ≤ cap := by
    intro before
    induction before using List.reverseRecOn with
    | nil => exact fun _ _ => Nat.zero_le _
    | append_singleton before event ih =>
      intro after hlog
      have hbefore := ih (event :: after) (by rw [hlog]; simp)
      have hallowed := h.allowed before event after (by rw [hlog]; simp)
      rw [successes_concat]
      cases event with
      | refused name' => simpa [ToolEvent.succeeds] using hbefore
      | ran name' text =>
        split_ifs with hsucceeds
        · have hname : name' = name := by
            cases text with
            | none => simp [ToolEvent.succeeds] at hsucceeds
            | some text =>
              simp only [ToolEvent.succeeds, Bool.and_eq_true, decide_eq_true_eq] at hsucceeds
              exact hsucceeds.1
          subst hname
          exact hallowed cap hcap
        · exact hbefore
  exact hprefix log [] (append_nil _).symm

/-! ### One call -/

theorem leftOf_record (budget : Option ToolUseBudget) (name text name' : String) :
    leftOf (budget.map (·.record name text)) name' =
      if name = name' ∧ isToolError text = false then (leftOf budget name').map (· - 1)
      else leftOf budget name' := by
  cases budget with
  | none => simp [leftOf]
  | some budget =>
    simp only [leftOf, Option.map_some, Option.bind_some, ToolUseBudget.record]
    by_cases hname : name = name'
    · subst hname
      cases hremaining : budget.remaining name with
      | none => simp [hremaining]
      | some left => cases herror : isToolError text <;> simp [hremaining]
    · have hne : ¬ name' = name := fun h => hname h.symm
      split_ifs <;> simp_all [Function.update_of_ne]

variable {pool : ToolPool}

theorem refuses_iff (h : CapsKept caps budget log) {name : String}
    (howned : pool.ownsTool name = true) :
    (isCappedCall budget pool name && budget.any (·.exhausted name)) = true ↔
      ∃ cap, caps.lookup name = some cap ∧ successes name log = cap := by
  have hleft := h.left name
  cases hcap : caps.lookup name with
  | none =>
    rw [hcap, Option.map_none] at hleft
    cases budget with
    | none => simp [isCappedCall]
    | some budget =>
      have hremaining : budget.remaining name = none := hleft
      simp [isCappedCall, ToolUseBudget.caps, hremaining]
  | some cap =>
    have hbounded := h.bounded hcap
    rw [hcap, Option.map_some] at hleft
    cases budget with
    | none => cases hleft
    | some budget =>
      have hremaining : budget.remaining name = some ((cap : ℤ) - successes name log) := hleft
      simp only [isCappedCall, Option.any_some, ToolUseBudget.caps, hremaining, howned,
        Option.isSome_some, Bool.and_self, Bool.true_and, ToolUseBudget.exhausted,
        decide_eq_true_eq, Option.some.injEq, exists_eq_left']
      omega

/-- A loop charges each call that did not fail. -/
def ChargesSuccesses (runCall : RunCall) : Prop :=
  ∀ pool call text charged, runCall pool call = .ok (text, charged) →
    charged = true ∨ isToolError text = true

theorem isToolError_failedText (pool : ToolPool) (name : String) :
    isToolError (failedText pool name) = true := by
  rw [isToolError, failedText, toolFailureDetail]
  split_ifs <;> decide +kernel

theorem tryCall_charges : ChargesSuccesses tryCall := by
  intro pool call text charged h
  cases houtcome : call.outcome with
  | returned text' =>
    simp only [tryCall, houtcome, Except.ok.injEq, Prod.mk.injEq] at h
    exact .inl h.2.symm
  | raised =>
    simp only [tryCall, houtcome, Except.ok.injEq, Prod.mk.injEq] at h
    rw [← h.1]
    exact .inr (isToolError_failedText pool call.name)
  | iterationsExceeded => simp [tryCall, houtcome] at h
  | cancelled => simp [tryCall, houtcome] at h

theorem callStreamTool_charges : ChargesSuccesses callStreamTool := by
  intro pool call text charged h
  cases houtcome : call.outcome with
  | returned text' =>
    simp only [callStreamTool, houtcome, Except.ok.injEq, Prod.mk.injEq] at h
    exact .inl h.2.symm
  | raised =>
    simp only [callStreamTool, houtcome, Except.ok.injEq, Prod.mk.injEq] at h
    exact .inl h.2.symm
  | iterationsExceeded => simp [callStreamTool, houtcome] at h
  | cancelled => simp [callStreamTool, houtcome] at h

theorem leftOf_charged (h : CapsKept caps budget log) {name text : String}
    {charged : Bool} (howned : pool.ownsTool name = true)
    (hcharged : charged = true ∨ isToolError text = true) (name' : String) :
    leftOf (if isCappedCall budget pool name && charged then budget.map (·.record name text)
        else budget) name' = (caps.lookup name').map fun cap : ℕ =>
        (cap : ℤ) - successes name' (log ++ [.ran name (some text)]) := by
  have hleft := h.left name'
  rw [successes_concat]
  by_cases hspends : name = name' ∧ isToolError text = false
  · obtain ⟨rfl, hok⟩ := hspends
    have hsucceeds : (ToolEvent.ran name (some text)).succeeds name = true := by
      simp [ToolEvent.succeeds, hok]
    have hcharge : charged = true := hcharged.resolve_right (by simp [hok])
    rw [hsucceeds, if_pos rfl, hcharge, Bool.and_true]
    cases hcap : caps.lookup name with
    | none =>
      rw [hcap, Option.map_none] at hleft
      split_ifs
      · rw [leftOf_record, if_pos ⟨rfl, hok⟩, hleft]
        rfl
      · exact hleft
    | some cap =>
      rw [hcap, Option.map_some] at hleft
      have hcapped : isCappedCall budget pool name = true := by
        cases budget with
        | none => cases hleft
        | some budget =>
          have hremaining : budget.remaining name = some ((cap : ℤ) - successes name log) := hleft
          simp [isCappedCall, ToolUseBudget.caps, hremaining, howned]
      rw [if_pos hcapped, leftOf_record, if_pos ⟨rfl, hok⟩, hleft]
      simp only [Option.map_some, Option.some.injEq]
      push_cast
      ring
  · have hsucceeds : (ToolEvent.ran name (some text)).succeeds name' = false := by
      simp only [ToolEvent.succeeds, Bool.and_eq_false_imp, decide_eq_true_eq, Bool.not_eq_false']
      intro hname
      by_contra herror
      exact hspends ⟨hname, by simpa using herror⟩
    simp only [hsucceeds, Bool.false_eq_true, if_false, Nat.add_zero]
    split_ifs
    · rw [leftOf_record, if_neg hspends]
      exact hleft
    · exact hleft

/-! ### The calls of a round -/

/-- After the log, a run keeps the caps and has events of the pool's own tools. -/
structure RunKeeps (caps : List (String × ℕ)) (pool : ToolPool) (log : List ToolEvent)
    (budget : Option ToolUseBudget) (events : List ToolEvent) : Prop where
  kept : CapsKept caps budget (log ++ events)
  owned : ∀ event ∈ events, pool.ownsTool event.name = true

theorem RunKeeps.nil (h : CapsKept caps budget log) (pool : ToolPool) :
    RunKeeps caps pool log budget [] :=
  ⟨by rwa [append_nil], fun _ h => absurd h not_mem_nil⟩

theorem RunKeeps.append {budget' : Option ToolUseBudget}
    {events events' : List ToolEvent} (h : RunKeeps caps pool log budget events)
    (h' : RunKeeps caps pool (log ++ events) budget' events') :
    RunKeeps caps pool log budget' (events ++ events') := by
  refine ⟨by rw [← append_assoc]; exact h'.kept, fun event hevent => ?_⟩
  rcases mem_append.mp hevent with hevent | hevent
  · exact h.owned event hevent
  · exact h'.owned event hevent

theorem RunKeeps.single {event : ToolEvent}
    (h : CapsKept caps budget (log ++ [event])) (howned : pool.ownsTool event.name = true) :
    RunKeeps caps pool log budget [event] := by
  refine ⟨h, fun event' hevent => ?_⟩
  rw [mem_singleton.mp hevent]
  exact howned

/-- **A round's calls keep the caps**, whatever they come to. -/
theorem executeCalls_kept {runCall : RunCall} (hrun : ChargesSuccesses runCall) (pool : ToolPool)
    (calls : List ToolCall) (howned : ∀ call ∈ calls, pool.ownsTool call.name = true)
    (h : CapsKept caps budget log) :
    RunKeeps caps pool log (executeCalls runCall pool budget calls).budget
      (executeCalls runCall pool budget calls).log := by
  induction calls generalizing budget log with
  | nil => exact .nil h pool
  | cons call calls ih =>
    obtain ⟨hcall, hcalls⟩ := forall_mem_cons.mp howned
    have hrefuses := refuses_iff h hcall
    rw [executeCalls]
    split_ifs with hrefused
    · have hevent : CapsKept caps budget (log ++ [.refused call.name]) := by
        refine h.concat (hrefuses.mp hrefused) fun name => ?_
        rw [successes_concat]
        simpa [ToolEvent.succeeds] using h.left name
      exact (RunKeeps.single hevent hcall).append (ih hcalls hevent)
    · have hallowed : ∀ text, (ToolEvent.ran call.name text).Allowed caps log := by
        intro text cap hcap
        refine lt_of_le_of_ne (h.bounded hcap) fun hspent => hrefused (hrefuses.mpr ⟨cap, hcap, hspent⟩)
      cases hresult : runCall pool call with
      | error e =>
        refine .single (h.concat (hallowed none) fun name => ?_) hcall
        rw [successes_concat]
        simpa [ToolEvent.succeeds] using h.left name
      | ok result =>
        obtain ⟨text, charged⟩ := result
        have hevent := h.concat (hallowed (some text))
          (leftOf_charged h hcall (hrun pool call text charged hresult))
        exact (RunKeeps.single hevent hcall).append (ih hcalls hevent)

/-! ### The loops -/

variable (format : WireFormat)

theorem executeOwned_kept (pool : ToolPool) (calls : List ToolCall)
    (howned : ∀ call ∈ calls, pool.ownsTool call.name = true) (h : CapsKept caps budget log) :
    RunKeeps caps pool log (format.executeOwned pool budget calls).budget
      (format.executeOwned pool budget calls).log := by
  cases format with
  | chat => exact executeCalls_kept tryCall_charges pool calls howned h
  | messages => exact executeCalls_kept tryCall_charges pool calls howned h
  | responses => exact executeCalls_kept tryCall_charges pool calls howned h

theorem executeStreamed_kept (pool : ToolPool) (calls : List ToolCall)
    (howned : ∀ call ∈ calls, pool.ownsTool call.name = true) (h : CapsKept caps budget log) :
    RunKeeps caps pool log (format.executeStreamed pool budget calls).budget
      (format.executeStreamed pool budget calls).log := by
  cases format with
  | chat => exact executeCalls_kept tryCall_charges pool calls howned h
  | messages => exact executeCalls_kept callStreamTool_charges pool calls howned h
  | responses => exact executeCalls_kept tryCall_charges pool calls howned h

theorem goesOn_kept {execution : Execution} {next : Option ToolUseBudget → LoopRun}
    (h : RunKeeps caps pool log execution.budget execution.log)
    (hnext : ∀ {budget log}, CapsKept caps budget log →
      RunKeeps caps pool log (next budget).budget (next budget).log) :
    RunKeeps caps pool log (execution.goesOn next).budget (execution.goesOn next).log := by
  unfold Execution.goesOn
  cases execution.results with
  | error e => exact h
  | ok results => exact h.append (hnext h.kept)

theorem splitOwned_owned (turn : Turn) (pool : ToolPool) :
    ∀ call ∈ (splitOwned turn pool).1, pool.ownsTool call.name = true :=
  fun _ hcall => (mem_filter.mp hcall).2

theorem runToolLoop_kept (pool : ToolPool) (iterations : ℕ)
    (turns : List Turn) (h : CapsKept caps budget log) :
    RunKeeps caps pool log (runToolLoop format pool iterations budget turns).budget
      (runToolLoop format pool iterations budget turns).log := by
  induction iterations generalizing budget log turns with
  | zero => exact .nil h pool
  | succ iterations ih =>
    cases turns with
    | nil => exact .nil h pool
    | cons turn turns =>
      have hexecuted := executeOwned_kept format pool _ (splitOwned_owned turn pool) h
      simp only [runToolLoop]
      split_ifs with hbefore hforeign hdone
      · exact .nil h pool
      · exact hexecuted
      · exact .nil h pool
      · exact goesOn_kept hexecuted fun hkept => ih turns hkept

theorem streamExiting_owned (turn : Turn) (pool : ToolPool) :
    ∀ call ∈ (format.streamExiting turn pool).2, pool.ownsTool call.name = true := by
  have howned := splitOwned_owned turn pool
  intro call hcall
  cases format with
  | chat =>
    simp only [WireFormat.streamExiting] at hcall
    split_ifs at hcall
    · exact absurd hcall not_mem_nil
    · exact howned call hcall
  | messages => exact howned call hcall
  | responses =>
    simp only [WireFormat.streamExiting] at hcall
    split_ifs at hcall
    · exact absurd hcall not_mem_nil
    · exact howned call hcall

theorem finalizeExit_owned (turn : Turn)
    {owned : List ToolCall} (howned : ∀ call ∈ owned, pool.ownsTool call.name = true) :
    ∀ call ∈ format.finalizeExit turn owned, pool.ownsTool call.name = true := by
  intro call hcall
  cases format with
  | chat => exact howned call hcall
  | messages =>
    simp only [WireFormat.finalizeExit] at hcall
    split_ifs at hcall
    · exact absurd hcall not_mem_nil
    · exact howned call hcall
  | responses => exact howned call hcall

theorem runToolLoopStream_kept (pool : ToolPool) (iterations : ℕ)
    (turns : List Turn) (h : CapsKept caps budget log) :
    RunKeeps caps pool log (runToolLoopStream format pool iterations budget turns).budget
      (runToolLoopStream format pool iterations budget turns).log := by
  induction iterations generalizing budget log turns with
  | zero => exact .nil h pool
  | succ iterations ih =>
    cases turns with
    | nil => exact .nil h pool
    | cons turn turns =>
      have howned := streamExiting_owned format turn pool
      simp only [runToolLoopStream]
      split_ifs with hexiting
      · exact executeStreamed_kept format pool _ (finalizeExit_owned format turn howned) h
      · exact goesOn_kept (executeStreamed_kept format pool _ howned h) fun hkept => ih turns hkept

/-! ### The request -/

/-- What the caps of a request bound, over the log of its attempts. -/
structure UsesBounded (caps : List (String × ℕ)) (attempts : List LoopAttempt)
    (budget : Option ToolUseBudget) (log : List ToolEvent) : Prop where
  bounded : ∀ name cap, caps.lookup name = some cap → successes name log ≤ cap
  refused : ∀ before name after, log = before ++ .refused name :: after →
    ∃ cap, caps.lookup name = some cap ∧ successes name before = cap
  ran : ∀ before name text after, log = before ++ .ran name text :: after →
    ∀ cap, caps.lookup name = some cap → successes name before < cap
  left : ∀ name, leftOf budget name =
    (caps.lookup name).map fun cap : ℕ => (cap : ℤ) - successes name log
  owned : ∀ event ∈ log, ∃ attempt ∈ attempts, attempt.pool.ownsTool event.name = true

theorem LoopAttempt.run_kept (attempt : LoopAttempt) (format : WireFormat) (streamed : Bool)
    (h : CapsKept caps budget log) :
    RunKeeps caps attempt.pool log (attempt.run format streamed budget).budget
      (attempt.run format streamed budget).log := by
  cases streamed with
  | true => exact runToolLoopStream_kept format attempt.pool _ _ h
  | false => exact runToolLoop_kept format attempt.pool _ _ h

theorem spendAttempts_kept (streamed : Bool) (attempts : List LoopAttempt)
    (h : CapsKept caps budget log) : CapsKept caps (spendAttempts format streamed budget attempts).1
        (log ++ (spendAttempts format streamed budget attempts).2) ∧
      ∀ event ∈ (spendAttempts format streamed budget attempts).2,
        ∃ attempt ∈ attempts, attempt.pool.ownsTool event.name = true := by
  induction attempts generalizing budget log with
  | nil => exact ⟨by rwa [spendAttempts, append_nil], fun _ h => absurd h not_mem_nil⟩
  | cons attempt attempts ih =>
    have hrun := attempt.run_kept format streamed h
    obtain ⟨hkept, howned⟩ := ih hrun.kept
    refine ⟨by rw [append_assoc] at hkept; exact hkept, fun event hevent => ?_⟩
    rcases mem_append.mp hevent with hevent | hevent
    · exact ⟨attempt, mem_cons_self, hrun.owned event hevent⟩
    · obtain ⟨other, hother, hevent⟩ := howned event hevent
      exact ⟨other, mem_cons_of_mem _ hother, hevent⟩

/-- **No tool is used past its cap**, whatever its request's attempts, rounds and calls come to. -/
theorem uses_capped (caps : List (String × ℕ)) (format : WireFormat) (streamed : Bool)
    (attempts : List LoopAttempt) :
    UsesBounded caps attempts (spendAttempts format streamed (useBudget caps) attempts).1
      (spendAttempts format streamed (useBudget caps) attempts).2 := by
  obtain ⟨hkept, howned⟩ := spendAttempts_kept format streamed attempts (CapsKept.start caps)
  rw [List.nil_append] at hkept
  exact ⟨fun name cap hcap => hkept.bounded hcap,
    fun before name after hlog => hkept.allowed before _ after hlog,
    fun before name text after hlog => hkept.allowed before _ after hlog, hkept.left, howned⟩

end Otari.Tools

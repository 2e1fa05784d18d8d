import Otari.Pricing.ToolPricing

/-!
# Tools — UsageTally — a request's tool calls, counted and held

`services/tool_usage.py`, the calls of one request as they are counted under their tools and labels,
and `ReservationToolGate` of `api/routes/_pipeline.py`, which holds the price of a call before it
runs.  What a call held and what it is billed are both a label's price; a call is admitted under
`admittedName` of its tool and counted under `ToolUsageTally.keyOf` it.
-/

namespace Otari.Tools
open Pricing

/-! ### Names -/

def toolErrorSentinel : List Char := "[tool error]".toList

/-- `is_tool_error`. -/
def isToolError (result : String) : Bool := toolErrorSentinel.isPrefixOf result.toList

def maxToolNames : ℕ := 32

def maxToolNameChars : ℕ := 64

def overflowToolName : Key := "_other".toList

/-- `name or OVERFLOW_TOOL_NAME`. -/
def orOverflow (name : Key) : Key := if name = [] then overflowToolName else name

/-- The name that a call is admitted under. -/
def admittedName (tool : Key) : Key := (orOverflow tool).take maxToolNameChars

/-- The name that a call is counted under where the tally has room for it. -/
def countedName (tool : Key) : Key :=
  (orOverflow (tool.filter (· ≠ '\x00'))).take maxToolNameChars

/-! ### The tally -/

structure ToolCounts where
  billed : ℕ := 0
  errors : ℕ := 0
deriving DecidableEq

/-- The calls of one label; the reported cost is of those that are not unreported. -/
structure LabelTotals where
  calls : ℕ := 0
  unreportedCalls : ℕ := 0
  reportedCost : ℚ≥0 := 0
  unreported_le : unreportedCalls ≤ calls := by simp
  reported : reportedCost ≠ 0 → unreportedCalls < calls := by simp

/-- What one call is recorded with, its tool's name apart. -/
structure CallTerms where
  label : Option Key := none
  rateKeys : Option (List RateKey) := none
  deploymentPaid : Option Bool := none
deriving DecidableEq

structure ToolUsageTally where
  counts : List (Key × ToolCounts) := []
  labels : List ((Key × CallTerms) × LabelTotals) := []
  overflowed : Bool := false

/-- `MAX_USD_COST`. -/
def maxUsdCost : ℚ := 10 ^ 12 - 1 / 10 ^ 6

/-- `_usable_cost`. -/
def usableCost (value : Option ℚ) : Option ℚ≥0 :=
  value.bind fun cost => if 0 ≤ cost ∧ cost ≤ maxUsdCost then some cost.toNNRat else none

def LabelTotals.record (totals : LabelTotals) : Option ℚ≥0 → LabelTotals
  | none => { totals with
    calls := totals.calls + 1
    unreportedCalls := totals.unreportedCalls + 1
    unreported_le := Nat.succ_le_succ totals.unreported_le
    reported := fun h => Nat.succ_lt_succ (totals.reported h) }
  | some cost => { totals with
    calls := totals.calls + 1
    reportedCost := totals.reportedCost + cost
    unreported_le := Nat.le_succ_of_le totals.unreported_le
    reported := fun _ => Nat.lt_succ_of_le totals.unreported_le }

namespace ToolUsageTally
variable (tally : ToolUsageTally)

/-- `_key`. -/
def keyOf (tool : Key) : Key :=
  if tally.counts.any (·.1 = countedName tool) then countedName tool
  else if maxToolNames ≤ tally.counts.length then overflowToolName
  else countedName tool

/-- Whether `_key` folds the name. -/
def folds (tool : Key) : Bool :=
  !tally.counts.any (·.1 = countedName tool) && decide (maxToolNames ≤ tally.counts.length)

/-- `_record`. -/
def count (tool : Key) (failed : Bool) : ToolUsageTally :=
  { tally with
    counts := Tally.change (tally.keyOf tool) {} (fun counts =>
      if failed then { counts with errors := counts.errors + 1 }
      else { counts with billed := counts.billed + 1 }) tally.counts
    overflowed := tally.overflowed || tally.folds tool }

/-- `record_success`. -/
def recordSuccess (tool : Key) (terms : CallTerms) (cost : Option ℚ) : ToolUsageTally :=
  { tally.count tool false with
    labels := Tally.change (tally.keyOf tool, terms) {} (·.record (usableCost cost)) tally.labels }

/-- `record_failure`. -/
def recordFailure (tool : Key) : ToolUsageTally := tally.count tool true

end ToolUsageTally

/-- An entry of `label_calls`. -/
def labelCallsOf (item : (Key × CallTerms) × LabelTotals) : LabelCalls where
  tool := item.1.1
  label := item.1.2.label
  rateKeys := item.1.2.rateKeys
  calls := item.2.calls
  unreportedCalls := item.2.unreportedCalls
  reportedCost := item.2.reportedCost
  deploymentPaid := item.1.2.deploymentPaid
  unreported_le := item.2.unreported_le
  reported := item.2.reported

/-- `label_calls`. -/
def ToolUsageTally.labelCalls (tally : ToolUsageTally) : List LabelCalls :=
  tally.labels.map labelCallsOf

/-! ### The gate -/

/-- What the database answers to a hold. -/
inductive HoldAnswer where
  | fits
  | refused
  | lookupFails
  | holdFails
deriving DecidableEq

/-- `ReservationToolGate`; `reserved` is whether the request has a reservation that counts. -/
structure ReservationToolGate where
  reserved : Bool := true
  unitCosts : List ((Key × CallTerms) × ℚ≥0) := []
  toolHold : ℚ≥0 := 0

/-- The call that `ToolUsageTally.admit` asks for, which is of at least one. -/
def admittedCall (tool : Key) (terms : CallTerms) (calls : ℕ) : LabelCalls where
  tool := admittedName tool
  label := terms.label
  rateKeys := terms.rateKeys
  calls := calls
  unreportedCalls := calls
  reportedCost := 0
  deploymentPaid := terms.deploymentPaid
  unreported_le := le_rfl
  reported := fun h => absurd rfl h

def callTerms (call : LabelCalls) : CallTerms := ⟨call.label, call.rateKeys, call.deploymentPaid⟩

namespace ReservationToolGate
variable (rates : Rates) (gate : ReservationToolGate)

/-- `_unit_cost`, looked up once. -/
def unitCost (call : LabelCalls) : ℚ≥0 × ReservationToolGate :=
  match gate.unitCosts.lookup (call.tool, callTerms call) with
  | some unit => (unit, gate)
  | none =>
    let unit := ((chargeToolCalls [call] rates).unitRates.lookup call.tool).getD 0
    (unit, { gate with unitCosts := gate.unitCosts ++ [((call.tool, callTerms call), unit)] })

/-- `admit`: what is held for each of the calls, where they may run. -/
def admitCall (call : LabelCalls) (answer : HoldAnswer) : Option ℚ≥0 × ReservationToolGate :=
  if !gate.reserved then
    (some 0, gate)
  else if answer = .lookupFails ∧ gate.unitCosts.lookup (call.tool, callTerms call) = none then
    (none, gate)
  else
    let (unit, gate') := gate.unitCost rates call
    if unit ≤ 0 then
      (some 0, gate')
    else if answer = .fits then
      (some unit, { gate' with toolHold := gate'.toolHold + unit * call.calls })
    else
      (none, gate')

end ReservationToolGate

/-! ### The calls of a request -/

/-- Calls that may run: their tool and terms, what each of them holds, and how many are left. -/
structure Hold where
  tool : Key
  terms : CallTerms
  unit : ℚ≥0
  left : ℕ

/-- A request's tally and its gate, the calls it has admitted, and what was held for those of them
that succeeded. -/
structure ToolSpend where
  tally : ToolUsageTally := {}
  gate : ReservationToolGate := {}
  holds : List Hold := []
  heldForSuccesses : ℚ≥0 := 0

inductive ToolSpend.Event where
  | admitCall (tool : Key) (terms : CallTerms) (more : ℕ) (answer : HoldAnswer)
  | success (hold : ℕ)
  | failure (tool : Key)

/-- One call of the tally.  A success is of a call that was admitted, and reports no cost. -/
def ToolSpend.step (rates : Rates) (s : ToolSpend) : Event → Option ToolSpend
  | .admitCall tool terms more answer =>
    let (unit, gate) := s.gate.admitCall rates (admittedCall tool terms (more + 1)) answer
    some { s with
      gate := gate
      holds := s.holds ++ unit.toList.map fun unit => ⟨tool, terms, unit, more + 1⟩ }
  | .success i => do
    let hold ← s.holds[i]?
    if hold.left = 0 then
      none
    else
      return { s with
        tally := s.tally.recordSuccess hold.tool hold.terms none
        holds := s.holds.set i { hold with left := hold.left - 1 }
        heldForSuccesses := s.heldForSuccesses + hold.unit }
  | .failure tool => some { s with tally := s.tally.recordFailure tool }

def ToolSpend.run (rates : Rates) : ToolSpend → List Event → Option ToolSpend
  | s, [] => some s
  | s, event :: events => (s.step rates event).bind (run rates · events)

end Otari.Tools

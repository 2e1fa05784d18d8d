import Otari.Policy.Globs

/-!
# Policy — Gates — what a policy file declares and what a check answers

`domain/types.py`: the five gate types, the evidence a caller submits and a gate's result, with the
path gate's evaluation (`evaluatePath`, of `domain/evaluators.py`).

A path gate that runs where the evidence was read fails exactly when some submitted path is one its
globs match (`evaluatePath_fail_iff`).
-/

namespace Otari.Policy

/-! ### Gates -/

/-- `Enforcement`. -/
inductive Enforcement where
  | required
  | advisory
deriving DecidableEq

/-- `EvidenceScope`: what a submitted command list covers. -/
inductive EvidenceScope where
  | call
  | session
deriving DecidableEq

/-- `RunsAt`: the moment a gate runs at, and the evidence it sees there. -/
inductive RunsAt where
  | preToolUseEditTarget
  | preToolUseReadTarget
  | preToolUseCommand
  | stopWorkingTree
  | stopSession
  | stopVerifier
deriving DecidableEq

def RunsAt.value : RunsAt → Text
  | .preToolUseEditTarget => "pre_tool_use.edit_target".toList
  | .preToolUseReadTarget => "pre_tool_use.read_target".toList
  | .preToolUseCommand => "pre_tool_use.command".toList
  | .stopWorkingTree => "stop.working_tree".toList
  | .stopSession => "stop.session".toList
  | .stopVerifier => "stop.verifier".toList

/-- `WarningCode`. -/
inductive WarningCode where
  | backslashInGlob
  | globMatchesNoFile
  | globMissesShallowerDepth
  | judgeGateCap
  | shellReadUnseen
  | shellWriteUnseen
  | singleTokenPhrase
  | verifierGateCap
deriving DecidableEq

def WarningCode.value : WarningCode → Text
  | .backslashInGlob => "backslash-in-glob".toList
  | .globMatchesNoFile => "glob-matches-no-file".toList
  | .globMissesShallowerDepth => "glob-misses-shallower-depth".toList
  | .judgeGateCap => "judge-gate-cap".toList
  | .shellReadUnseen => "shell-read-unseen".toList
  | .shellWriteUnseen => "shell-write-unseen".toList
  | .singleTokenPhrase => "single-token-phrase".toList
  | .verifierGateCap => "verifier-gate-cap".toList

structure Gate where
  id : Text
  enforcement : Enforcement
  runs : List RunsAt
  message : Text := []
  acceptWarnings : List WarningCode := []

structure PathGate extends Gate where
  forbidden : List Text

structure CommandGate extends Gate where
  forbidden : List Text

structure CommandIfChangedGate extends Gate where
  whenChanged : List Text
  require : List Text

/-- A judge gate is never more than advisory. -/
structure JudgeGate extends Gate where
  whenChanged : List Text := []
  priority : ℤ := 0
  advisory : enforcement = .advisory

structure VerifierGate extends Gate where
  verifier : Text
  whenChanged : List Text := []
  priority : ℤ := 0

/-- `GateSpec`. -/
inductive GateSpec where
  | path (gate : PathGate)
  | command (gate : CommandGate)
  | commandIfChanged (gate : CommandIfChangedGate)
  | judge (gate : JudgeGate)
  | verifier (gate : VerifierGate)

def GateSpec.gate : GateSpec → Gate
  | .path gate => gate.toGate
  | .command gate => gate.toGate
  | .commandIfChanged gate => gate.toGate
  | .judge gate => gate.toGate
  | .verifier gate => gate.toGate

/-- `failure_message`: the gate's own wording, or the generic line of its type. -/
def Gate.failureMessage (gate : Gate) (generic : String) : Text :=
  if gate.message.isEmpty then generic.toList else gate.message

/-! ### Evidence and results -/

structure PathEvidence where
  paths : List Text
  source : Option RunsAt := none

structure CommandEvidence where
  commands : List Text
  scope : EvidenceScope := .call

inductive Outcome where
  | pass
  | fail
  | unknown
  | error
  | notApplicable
  | notRun
deriving DecidableEq

structure GateResult where
  gateId : Text
  enforcement : Enforcement
  outcome : Outcome
  message : Text
  detail : Option Text := none
deriving DecidableEq

def Gate.result (gate : Gate) (outcome : Outcome) (message : Text) (detail : Option Text := none) :
    GateResult where
  gateId := gate.id
  enforcement := gate.enforcement
  outcome
  message
  detail

@[simp] theorem Gate.result_outcome (gate : Gate) (outcome : Outcome) (message : Text)
    (detail : Option Text) : (gate.result outcome message detail).outcome = outcome := rfl

/-- `", ".join`. -/
def joinComma (texts : List Text) : Text := ", ".toList.intercalate texts

/-! ### The path gate -/

/-- `PathGate.failure_message`. -/
def PathGate.failureMessage (gate : PathGate) : Text :=
  gate.toGate.failureMessage "A path this gate forbids was matched."

/-- `evaluate_path`. -/
def evaluatePath (gate : PathGate) : Option PathEvidence → GateResult
  | none => gate.result .unknown "Path evidence was not submitted.".toList
  | some evidence =>
    match evidence.source.filter (· ∉ gate.runs) with
    | some source =>
      gate.result .notApplicable ("This gate does not run at ".toList ++ source.value ++ ".".toList)
    | none =>
      if evidence.paths.isEmpty then
        gate.result .notApplicable "No paths were submitted to check.".toList
      else
        let matched := matchedChangedPaths gate.forbidden evidence.paths
        if matched.isEmpty then gate.result .pass "No forbidden paths were submitted.".toList
        else gate.result .fail gate.failureMessage (some (joinComma matched))

/-- **A path gate fails on a path one of its globs matches**, where it runs. -/
theorem evaluatePath_fail_iff {gate : PathGate} {paths : List Text} {source : RunsAt}
    (h : source ∈ gate.runs) :
    (evaluatePath gate (some { paths, source := some source })).outcome = .fail ↔
      ∃ path ∈ paths, (matchesAny path gate.forbidden).isSome = true := by
  have hruns : (some source).filter (· ∉ gate.runs) = none := by simp [Option.filter, h]
  have hmatched : matchedChangedPaths gate.forbidden paths = [] ↔
      ∀ path ∈ paths, ¬ (matchesAny path gate.forbidden).isSome = true := by
    rw [List.eq_nil_iff_forall_not_mem]
    simp only [matchedChangedPaths, mem_sortedTexts, List.mem_filter, not_and]
  simp only [evaluatePath, hruns]
  by_cases hpaths : paths = []
  · simp [hpaths]
  · by_cases hnone : matchedChangedPaths gate.forbidden paths = []
    · have := hmatched.mp hnone
      simp only [List.isEmpty_iff, hpaths, hnone, if_true, if_false, Gate.result_outcome]
      constructor
      · rintro ⟨⟩
      · rintro ⟨path, hpath, hsome⟩
        exact absurd hsome (this path hpath)
    · have : ∃ path ∈ paths, (matchesAny path gate.forbidden).isSome = true := by
        by_contra hall
        exact hnone (hmatched.mpr fun path hpath hsome => hall ⟨path, hpath, hsome⟩)
      simp [List.isEmpty_iff, hpaths, hnone, this]

end Otari.Policy

import Otari.Policy.ShellWords

/-!
# Policy — Validation — what a policy's author is told

`domain/validation.py`: the static checks of a parsed policy (`validatePolicy`), with the texts of
their findings over Python's `repr` of a string.
-/

namespace Otari.Policy
open Shlex (LexError)

def concat (parts : List Text) : Text := parts.flatten

/-- A text in single quotes, as `repr` writes it where it has none. -/
def singleQuoted (text : Text) : Text := '\'' :: text ++ ['\'']

/-- `PolicySpec`. -/
structure PolicySpec where
  schemaVersion : Text
  policyId : Text
  gates : List GateSpec

/-- `Finding`: a warning has a code, and an error neither has one nor is accepted. -/
inductive Finding where
  | error (gateId : Option Text) (message : Text)
  | warning (gateId : Option Text) (message : Text) (code : WarningCode) (accepted : Bool)
deriving DecidableEq

/-- `_gate_warning`: accepted where the gate names its code. -/
def gateWarning (gate : Gate) (code : WarningCode) (message : Text) : Finding :=
  .warning (some gate.id) message code (code ∈ gate.acceptWarnings)

/-- `_glob_fields`. -/
def globFields : GateSpec → List (Text × List Text)
  | .path gate => [("forbidden".toList, gate.forbidden)]
  | .commandIfChanged gate => [("when_changed".toList, gate.whenChanged)]
  | .judge gate => [("when_changed".toList, gate.whenChanged)]
  | .verifier gate => [("when_changed".toList, gate.whenChanged)]
  | .command _ => []

inductive PhraseField where
  | forbidden
  | require
deriving DecidableEq

def PhraseField.value : PhraseField → Text
  | .forbidden => "forbidden".toList
  | .require => "require".toList

/-- `_phrase_fields`. -/
def phraseFields : GateSpec → List (PhraseField × List Text)
  | .command gate => [(.forbidden, gate.forbidden)]
  | .commandIfChanged gate => [(.require, gate.require)]
  | _ => []

/-! ### Globs -/

/-- `"/".join`. -/
def joinSegments (segments : List Text) : Text := ['/'].intercalate segments

/-- `shallower_twin`: the glob without its `**`, where that is not the last segment. -/
def shallowerTwin (glob : Text) : Option Text :=
  let segments := segmentsOf glob
  if doubleStar ∉ segments then none
  else
    let index := segments.idxOf doubleStar
    if index = segments.length - 1 then none
    else some (joinSegments (segments.take index ++ segments.drop (index + 1)))

/-- `_UNREACHABLE_SEGMENTS`. -/
def unreachableSegments : List Text := [[], ".".toList, "..".toList]

/-- The first segment of a glob that no repo-relative path has. -/
def unreachableSegment (glob : Text) : Option Text :=
  (segmentsOf glob).find? (· ∈ unreachableSegments)

section Texts
variable (repr : Text → Text)

/-- `unreachable_glob`. -/
def unreachableGlob (glob : Text) : Option Text :=
  (unreachableSegment glob).map fun segment =>
    let spelled := if segment.isEmpty then "an empty".toList else "a ".toList ++ repr segment
    concat ["glob ".toList, repr glob, " has ".toList, spelled,
      " path segment, and a repo-relative path never ".toList,
      "does, so this pattern can never match. Spell it relative to the repo root ".toList,
      "with no leading '/' or './'.".toList]

/-! ### Phrases -/

/-- `_SPLIT_ADVICE`. -/
def splitAdvice : PhraseField → Text
  | .forbidden =>
    "Split it into one phrase per command; any one of them matching refuses the call.".toList
  | .require => concat [
      "Give each required command a gate of its own. Do not split it across `require` entries: ".toList,
      "any one entry satisfies a gate, so the split list would pass as soon as the first command ran.".toList]

/-- The separators among a phrase's tokens, sorted. -/
def offenders (phrase : Text) : Except LexError (List Text) := do
  let tokens ← tokenizePhraseWithSeparators phrase
  return sortedTexts (Distinct.firsts id (tokens.filter (· ∈ commandSeparators)))

/-- `unmatchable_phrase`. -/
def unmatchablePhrase (phrase : Text) (field : PhraseField) : Except LexError (Option Text) := do
  let offenders ← offenders phrase
  if offenders.isEmpty then return none
  return some (concat ["phrase ".toList, repr phrase, " contains the shell separator(s) ".toList,
    joinComma (offenders.map repr),
    ", and a phrase is matched within one separator-delimited segment of a command, so this can ".toList,
    "never match any command at all. ".toList, splitAdvice field])

/-! ### Gates -/

/-- `_mentioned_by_a_command_gate`. -/
def mentionedByACommandGate (globs : List Text) (spec : PolicySpec) : Bool :=
  spec.gates.any fun
    | .command gate => gate.forbidden.any fun phrase =>
      match tokenizePhrase phrase with
      | .error _ => false
      | .ok tokens => !(matchedChangedPaths globs tokens).isEmpty
    | _ => false

/-- `_path_gate_blind_spots`. -/
def pathGateBlindSpots (gate : PathGate) (spec : PolicySpec) : List Finding :=
  (if .preToolUseEditTarget ∈ gate.runs ∧ .stopWorkingTree ∉ gate.runs then
    [gateWarning gate.toGate .shellWriteUnseen (concat [
      "runs at pre_tool_use.edit_target with no stop.working_tree beside it, so it sees the ".toList,
      "path an edit tool declares and nothing a shell command writes (a redirect, `sed -i`, a ".toList,
      "heredoc, `cp`, a script). Add stop.working_tree for a backstop over the finished tree.".toList])]
  else []) ++
  if .preToolUseReadTarget ∈ gate.runs ∧ !mentionedByACommandGate gate.forbidden spec then
    [gateWarning gate.toGate .shellReadUnseen (concat [
      "runs at pre_tool_use.read_target, which sees the Read tool and nothing a shell command ".toList,
      "reads (`cat`, `less`, `head`). Unlike a write, nothing catches that afterwards: a read ".toList,
      "changes nothing, so no stop source can see one, and no command gate here names any of ".toList,
      "these paths. Add one if a shell read of them matters too.".toList])]
  else []

/-- `by_priority`. -/
def byPriority {α : Type} (priority : α → ℤ) (gates : List α) : List α :=
  gates.mergeSort fun a b => -priority a ≤ -priority b

/-- `_cap_warning`. -/
def capWarning (label : Text) (code : WarningCode) (limit : ℕ) (gates : List Gate) :
    Option Finding :=
  if gates.length ≤ limit then none
  else
    let skipped := gates.drop limit
    let message := concat [(toString gates.length).toList, " ".toList, label, " gates, over the ".toList,
      (toString limit).toList, " one Stop event evaluates. On a ".toList,
      "session where every one applies, these are skipped: ".toList, joinComma (skipped.map (·.id)),
      ". Scope them with when_changed so fewer apply at once, or raise the priority of ".toList,
      "the ones that must run.".toList]
    let unaccepted := (skipped.filter (code ∉ ·.acceptWarnings)).map (·.id)
    let accepting :=
      if !unaccepted.isEmpty ∧ unaccepted.length < skipped.length then
        concat [" Of those, ".toList, joinComma unaccepted,
          if unaccepted.length = 1 then " does".toList else " do".toList, " not accept ".toList,
          code.value, ".".toList]
      else []
    some (.warning none (message ++ accepting) code unaccepted.isEmpty)

/-- `_glob_reaches_a_file`: the glob, its twin or the glob it is the twin of. -/
def globReachesAFile (glob : Text) (globs tree : List Text) : Bool :=
  anyPathMatches (globs.filter fun other =>
    other = glob || shallowerTwin other = some glob || shallowerTwin glob = some other) tree

/-! ### The checks -/

/-- The warning of a glob whose shallower depth no glob of the list reaches. -/
def shallowerWarning (gate : Gate) (field glob twin : Text) : Finding :=
  gateWarning gate .globMissesShallowerDepth (concat [field, " glob ".toList, repr glob,
    " can never match ".toList, repr twin, ", and no other ".toList, field,
    " glob covers it either: '**' must consume at least one path segment. ".toList, "Add ".toList,
    repr twin, " beside it to cover that depth too.".toList])

/-- The findings of one glob of a field, against the tree where that is checked. -/
def globFindings (gate : Gate) (field : Text) (globs : List Text) (tree : Option (List Text))
    (glob : Text) : List Finding :=
  match unreachableGlob repr glob with
  | some dead => [.error (some gate.id) (concat [field, " ".toList, dead])]
  | none =>
    (if '\\' ∈ glob then
      [gateWarning gate .backslashInGlob (concat [field, " glob ".toList, repr glob,
        " contains a backslash, and a glob is matched ".toList,
        "against repo-relative POSIX paths split on '/'. If that was meant as ".toList,
        "a path separator, spell it with '/'.".toList])]
    else []) ++
    (match tree with
      | some tree =>
        if field = "when_changed".toList ∧ '\\' ∉ glob ∧ !globReachesAFile glob globs tree then
          [gateWarning gate .globMatchesNoFile (concat [field, " glob ".toList, repr glob,
            " matches no file in the repo. ".toList,
            "If it names a file that does not exist yet, such as build output, ".toList,
            "accept this warning on the gate.".toList])]
        else []
      | none => []) ++
    match shallowerTwin glob with
    | some twin =>
      -- coverage, not a literal twin: any glob of the list that reaches it will do
      if (matchedChangedPaths globs [twin]).isEmpty then
        [shallowerWarning repr gate field glob twin]
      else []
    | none => []

def phraseFindings (gate : Gate) (field : PhraseField) (phrases : List Text) :
    Except LexError (List Finding) := do
  let problems ← phrases.mapM fun phrase => unmatchablePhrase repr phrase field
  return problems.filterMap fun problem =>
    problem.map fun text => .error (some gate.id) (concat [field.value, " ".toList, text])

def singleTokenFindings (gate : CommandGate) : Except LexError (List Finding) := do
  let findings ← gate.forbidden.mapM fun phrase => do
    match ← unmatchablePhrase repr phrase .forbidden with
    | some _ => return []
    | none =>
      if (← tokenizePhrase phrase).length ≠ 1 then return []
      return [gateWarning gate.toGate .singleTokenPhrase (concat [
        "forbidden phrase ".toList, repr phrase,
        " is a single token, so it matches that word ".toList,
        "anywhere in a command, including one that only mentions it ".toList, "(`grep -rn ".toList,
        phrase, " .`). Prefer a phrase naming a real invocation.".toList])]
  return findings.flatten

/-- What `validate_policy` is given beside the policy. -/
structure ValidationInputs where
  judgeGateLimit : ℕ
  verifierGateLimit : ℕ
  probeVerifier : Option (VerifierGate → Option Text) := none
  repoFiles : Option (List Text) := none
  treeGateIds : Option (List Text) := none

/-- The tree, where this gate is checked against it. -/
def ValidationInputs.treeFor (inputs : ValidationInputs) (gate : Gate) : Option (List Text) :=
  inputs.repoFiles.filter fun _ => inputs.treeGateIds.all (gate.id ∈ ·)

def typeFindings (inputs : ValidationInputs) (spec : PolicySpec) :
    GateSpec → Except LexError (List Finding)
  | .command gate => singleTokenFindings repr gate
  | .path gate => .ok (pathGateBlindSpots gate spec)
  | .verifier gate =>
    .ok ((inputs.probeVerifier.bind (· gate)).map fun problem =>
      Finding.error (some gate.id) problem).toList
  | _ => .ok []

def gateFindings (inputs : ValidationInputs) (spec : PolicySpec) (gate : GateSpec) :
    Except LexError (List Finding) := do
  let ofGlobs := (globFields gate).flatMap fun entry =>
    entry.2.flatMap (globFindings repr gate.gate entry.1 entry.2 (inputs.treeFor gate.gate))
  let ofPhrases ← (phraseFields gate).mapM fun entry => phraseFindings repr gate.gate entry.1 entry.2
  return ofGlobs ++ ofPhrases.flatten ++ (← typeFindings repr inputs spec gate)

/-- `validate_policy`. -/
def validatePolicy (inputs : ValidationInputs) (spec : PolicySpec) :
    Except LexError (List Finding) := do
  let findings ← spec.gates.mapM (gateFindings repr inputs spec)
  let judges := byPriority JudgeGate.priority (spec.gates.filterMap fun
    | .judge gate => some gate
    | _ => none)
  let verifiers := byPriority VerifierGate.priority (spec.gates.filterMap fun
    | .verifier gate => some gate
    | _ => none)
  let caps := [
    capWarning "judge".toList .judgeGateCap inputs.judgeGateLimit (judges.map (·.toGate)),
    capWarning "verifier".toList .verifierGateCap inputs.verifierGateLimit
      (verifiers.map (·.toGate))]
  return findings.flatten ++ caps.filterMap id

end Texts

end Otari.Policy

import Otari.Access.AllowLists
import Otari.Support.Distinct
import Otari.Support.PyValue

/-!
# Usage — TranscriptScan — Claude Code's transcripts, read into usage events

`claude_code_import.py` of the command line: a transcript's lines (`scanTranscripts`), an event of
each line that carries usage (`usageEvent`), and the batches they are posted in (`batches`); and
`ExternalUsageEvent` and `ExternalEventsRequest` of `services/external_usage_service.py`, which the
endpoint reads a batch as (`acceptsEvent`, `acceptsRequest`).

The scan folds a model and a label into the endpoint's grammar, and copies a response's id, its time
and its token counts as they stand.
-/

namespace Otari.Transcripts
open Access (strip)
open PyValue (get string? dict?)

abbrev Text := List Char

/-! ### The endpoint's grammar -/

/-- `[A-Za-z0-9._:/\-]`. -/
def identChar (c : Char) : Bool :=
  ('A' ≤ c && c ≤ 'Z') || ('a' ≤ c && c ≤ 'z') || ('0' ≤ c && c ≤ '9') ||
    c ∈ ['.', '_', ':', '/', '-']

/-- `_MAX_TOKENS`. -/
def maxTokens : ℕ := 2147483647

/-- `MAX_EVENTS_PER_BATCH`. -/
def maxEventsPerBatch : ℕ := 1000

/-- A field of at least one character and at most `maxLength`, all of the grammar. -/
def ident (maxLength : ℕ) (text : Text) : Bool :=
  1 ≤ text.length && text.length ≤ maxLength && text.all identChar

/-! ### Events -/

/-- `UsageEvent`. -/
structure UsageEvent where
  sourceEventId : Text
  timestamp : Text
  provider : Text
  model : Text
  inputTokens : ℕ
  outputTokens : ℕ
  cacheReadTokens : ℕ
  cacheWriteTokens : ℕ
  cacheWrite1hTokens : ℕ
  sessionLabel : Text
deriving DecidableEq

/-- What `re.sub` raises on a value that is no string. -/
inductive TypeError where
  | expectedString
deriving DecidableEq

/-- `_CONTEXT_TAG.sub("", text)`: without what stands between brackets. -/
def dropContextTags : Text → Text
  | [] => []
  | c :: rest =>
    if c = '[' then
      match _h : rest.dropWhile (· ≠ ']') with
      | [] => c :: dropContextTags rest
      | _ :: after => dropContextTags after
    else c :: dropContextTags rest
termination_by text => text.length
decreasing_by
  · simp
  · have hlength := (List.dropWhile_suffix (l := rest) (· ≠ ']')).length_le
    rw [_h] at hlength
    simp only [List.length_cons] at hlength ⊢
    omega
  · simp

/-- `_IDENT_ALLOWED.sub("-", text)`. -/
def fold (text : Text) : Text := text.map fun c => if identChar c then c else '-'

/-- `str.strip("-")`. -/
def stripDashes (text : Text) : Text := (text.dropWhile (· = '-')).rdropWhile (· = '-')

/-- `text or fallback`. -/
def orElse (text fallback : Text) : Text := if text = [] then fallback else text

/-- `raw or ""`, where that is a string. -/
def readModel : Option PyValue → Except TypeError Text
  | some (.scalar (.str s)) => .ok s.toList
  | some value => if value.truthy then .error .expectedString else .ok []
  | none => .ok []

/-- `normalize_model`, of a string. -/
def normalizeModel (raw : Text) : Text :=
  orElse (stripDashes (fold (dropContextTags raw))) "unknown".toList

/-- `_PROVIDER_BY_PREFIX`. -/
def providerByPrefix : List (Text × Text) :=
  [("claude".toList, "anthropic".toList), ("gpt".toList, "openai".toList),
    ("o1".toList, "openai".toList), ("o3".toList, "openai".toList),
    ("gemini".toList, "google".toList), ("kimi".toList, "moonshot".toList)]

/-- `provider_for_model`. -/
def providerForModel (model : Text) : Text :=
  let lowered := model.map Char.toLower
  match providerByPrefix.find? fun entry => entry.1.isPrefixOf lowered with
  | some (_, provider) => provider
  | none => "unknown".toList

/-- `mangle_path`. -/
def manglePath (path : Text) : Text := path.map fun c => if c = '/' ∨ c = '.' then '-' else c

/-- `session_label`, with the home directory's path. -/
def sessionLabel (projectDir labelPrefix home : Text) : Text :=
  let trimmed := projectDir.dropWhile (· = '-')
  let homePrefix := (manglePath home).dropWhile (· = '-')
  let trimmed :=
    if homePrefix ≠ [] ∧ (homePrefix ++ ['-']).isPrefixOf trimmed then
      trimmed.drop (homePrefix.length + 1)
    else trimmed
  let host := orElse (stripDashes (fold labelPrefix)) "local".toList
  let name := orElse (stripDashes (fold trimmed)) "unknown".toList
  (host ++ ':' :: name).take 256

/-- `_int`: a count, where the value is one. -/
def int : Option PyValue → ℕ
  | some (.scalar (.int n)) => n.toNat
  | _ => 0

/-- What a line says of a response, where it carries usage. -/
structure Response where
  id : Text
  timestamp : Text
  model : Option PyValue
  usage : PyValue

/-- The checks of `_usage_event`. -/
def response? (record : PyValue) : Option Response := do
  let message ← dict? (get record "message")
  let usage ← dict? (get message "usage")
  let id ← string? (get message "id")
  let timestamp ← string? (get record "timestamp")
  return ⟨id, timestamp, get message "model", usage⟩

def write1h (usage : PyValue) : ℕ :=
  match dict? (get usage "cache_creation") with
  | some cacheCreation => int (get cacheCreation "ephemeral_1h_input_tokens")
  | none => 0

/-- The event of a response whose model is the string `raw`. -/
def Response.event (response : Response) (raw label : Text) : UsageEvent :=
  let writeTotal := int (get response.usage "cache_creation_input_tokens")
  let model := normalizeModel raw
  { sourceEventId := response.id
    timestamp := response.timestamp
    provider := providerForModel model
    model
    inputTokens := int (get response.usage "input_tokens")
    outputTokens := int (get response.usage "output_tokens")
    cacheReadTokens := int (get response.usage "cache_read_input_tokens")
    cacheWriteTokens := writeTotal
    cacheWrite1hTokens := min (write1h response.usage) writeTotal
    sessionLabel := label }

/-- `_usage_event`. -/
def usageEvent (record : PyValue) (label : Text) :
    Except TypeError (Option UsageEvent) :=
  match response? record with
  | none => .ok none
  | some response => (readModel response.model).map fun raw => some (response.event raw label)

/-- `_is_synthetic`. -/
def isSynthetic (record : PyValue) : Bool :=
  match dict? (get record "message") with
  | some message => string? (get message "model") = some "<synthetic>".toList
  | none => false

/-! ### The scan -/

/-- A line: whether it mentions usage, and the value it is decoded as, where it can be. -/
structure Line where
  mentionsUsage : Bool
  loads : Option PyValue

/-- A transcript: the first part of its path under the projects' directory, and the lines of it that
could be read. -/
structure Transcript where
  projectDir : Text
  lines : List Line

/-- `ScanResult`, and the ids seen. -/
structure ScanResult where
  events : List UsageEvent := []
  filesScanned : ℕ := 0
  duplicatesSkipped : ℕ := 0
  unparsableLines : ℕ := 0
  syntheticSkipped : ℕ := 0
  seen : List Text := []
deriving DecidableEq

/-- An event, where its response was not seen before. -/
def ScanResult.add (result : ScanResult) (event : UsageEvent) : ScanResult :=
  if event.sourceEventId ∈ result.seen then
    { result with duplicatesSkipped := result.duplicatesSkipped + 1 }
  else
    { result with
      seen := result.seen ++ [event.sourceEventId]
      events := result.events ++ [event] }

/-- A turn of the loop over a transcript's lines. -/
def ScanResult.line (label : Text) (result : ScanResult) (line : Line) :
    Except TypeError ScanResult :=
  if !line.mentionsUsage then .ok result
  else
    match line.loads with
    | none => .ok { result with unparsableLines := result.unparsableLines + 1 }
    | some record =>
      if !record.isDict then .ok result
      else if isSynthetic record then
        .ok { result with syntheticSkipped := result.syntheticSkipped + 1 }
      else
        (usageEvent record label).map fun
          | none => result
          | some event => result.add event

def ScanResult.transcript (labelPrefix home : Text) (result : ScanResult) (file : Transcript) :
    Except TypeError ScanResult :=
  file.lines.foldlM (ScanResult.line (sessionLabel file.projectDir labelPrefix home))
    { result with filesScanned := result.filesScanned + 1 }

/-- `events.sort(key=lambda event: event.timestamp)`. -/
def sortEvents (events : List UsageEvent) : List UsageEvent :=
  events.mergeSort fun a b => !decide (b.timestamp < a.timestamp)

/-- `scan_transcripts`, of the files `iter_transcripts` yields. -/
def scanTranscripts (labelPrefix home : Text) (files : List Transcript) :
    Except TypeError ScanResult :=
  (files.foldlM (ScanResult.transcript labelPrefix home) {}).map fun result =>
    { result with events := sortEvents result.events }

/-! ### The request -/

/-- The batches of `import_claude_code`: the first event alone, then `batchSize` at a time. -/
def batches (batchSize : ℕ) (events : List UsageEvent) : List (List UsageEvent) :=
  events.take 1 ::
    (List.range' 1 ((events.length - 1 + (batchSize - 1)) / batchSize) batchSize).map fun start =>
      (events.drop start).take batchSize

section
variable (parsesDatetime : Text → Bool)

/-- `ExternalUsageEvent`, of an event's payload: the fields left out have their defaults. -/
def acceptsEvent (event : UsageEvent) : Bool :=
  ident 256 event.sourceEventId && parsesDatetime event.timestamp && ident 128 event.provider &&
    ident 256 event.model && event.inputTokens ≤ maxTokens && event.outputTokens ≤ maxTokens &&
    event.cacheReadTokens ≤ maxTokens && event.cacheWriteTokens ≤ maxTokens &&
    event.cacheWrite1hTokens ≤ maxTokens && ident 256 event.sessionLabel

/-- `events` of `ExternalEventsRequest`. -/
def acceptsEvents (events : List UsageEvent) : Bool :=
  1 ≤ events.length && events.length ≤ maxEventsPerBatch && events.all (acceptsEvent parsesDatetime)

end
end Otari.Transcripts

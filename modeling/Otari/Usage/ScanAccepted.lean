import Otari.Usage.TranscriptScan

/-!
# Usage — ScanAccepted — which scans the import endpoint accepts

The scan keeps the first response of each id, and no synthetic line's (`takes_of_scan`).  What it
folds the endpoint always accepts: the provider, the label, and a model of at most 256 characters.
What it copies the endpoint accepts only where the transcript had it in the endpoint's shape.  **So
the events of a scan, and with them its batches, are accepted if and only if each response kept has
an id of the grammar, a time that parses, counts within the columns and a model that is not too long**
(`importable_iff`).
-/

namespace Otari.Transcripts
open List
open PyValue (get string? dict?)

/-! ### What is folded -/

variable {text : Text}

theorem identChar_of_mem_fold {c : Char} (h : c ∈ fold text) : identChar c = true := by
  obtain ⟨d, -, rfl⟩ := mem_map.mp h
  by_cases hd : identChar d = true
  · simp [hd]
  · simp only [hd]
    rfl

theorem stripDashes_subset {c : Char} (h : c ∈ stripDashes text) : c ∈ text := by
  have hmem : c ∈ text.dropWhile (· = '-') := (List.rdropWhile_prefix (· = '-') _).mem h
  exact (dropWhile_suffix (· = '-')).mem hmem

theorem identChar_of_mem_orElse {fallback : Text} (hfallback : fallback.all identChar = true)
    {c : Char} (h : c ∈ orElse (stripDashes (fold text)) fallback) : identChar c = true := by
  rw [orElse] at h
  split at h
  · exact all_eq_true.mp hfallback c h
  · exact identChar_of_mem_fold (stripDashes_subset h)

theorem orElse_ne_nil {fallback : Text} (hfallback : fallback ≠ []) :
    orElse text fallback ≠ [] := by
  rw [orElse]
  split
  · exact hfallback
  · assumption

theorem ident_iff {maxLength : ℕ} (hne : text ≠ []) (hchars : ∀ c ∈ text, identChar c = true) :
    ident maxLength text = true ↔ text.length ≤ maxLength := by
  have hpos : 1 ≤ text.length := length_pos_of_ne_nil hne
  have hall : text.all identChar = true := all_eq_true.mpr hchars
  simp [ident, hpos, hall]

/-- What is left of a model's name: without tags, and without what is folded to dashes at its ends. -/
def modelKept (raw : Text) : Text :=
  let trimmed := fun c => decide (c = '-') || !identChar c
  ((dropContextTags raw).dropWhile trimmed).rdropWhile trimmed

theorem length_stripDashes_fold (raw : Text) :
    (stripDashes (fold (dropContextTags raw))).length = (modelKept raw).length := by
  have hdash : ((fun c => decide (c = '-')) ∘ fun c => if identChar c then c else '-') =
      fun c => decide (c = '-') || !identChar c := by
    funext c
    by_cases hc : identChar c = true
    · simp [hc]
    · simp [hc]
  rw [stripDashes, fold, modelKept, dropWhile_map, hdash, List.rdropWhile, List.rdropWhile,
    ← map_reverse, dropWhile_map, hdash]
  simp

/-- **A folded model is accepted where what is left of it is not too long.** -/
theorem ident_normalizeModel (raw : Text) :
    ident 256 (normalizeModel raw) = true ↔ (modelKept raw).length ≤ 256 := by
  rw [normalizeModel, ident_iff (orElse_ne_nil (by decide))
    fun c hc => identChar_of_mem_orElse (by decide) hc, ← length_stripDashes_fold, orElse]
  split
  · rename_i hnil
    simp [hnil]
  · rfl

theorem ident_providerForModel (model : Text) : ident 128 (providerForModel model) = true := by
  have htable : ∀ entry ∈ providerByPrefix, ident 128 entry.2 = true := by decide
  rw [providerForModel]
  split
  · rename_i hfind
    exact htable _ (mem_of_find?_eq_some hfind)
  · decide

theorem ident_sessionLabel (projectDir labelPrefix home : Text) :
    ident 256 (sessionLabel projectDir labelPrefix home) = true := by
  unfold sessionLabel
  dsimp only
  rw [ident_iff]
  · exact (length_take_le _ _)
  · simp
  · intro c hc
    rcases mem_append.mp (mem_of_mem_take hc) with hhost | hname
    · exact identChar_of_mem_orElse (by decide) hhost
    · rcases mem_cons.mp hname with rfl | hname
      · decide
      · exact identChar_of_mem_orElse (by decide) hname

/-! ### What is copied -/

def ReadableModel (model : Option PyValue) : Prop := ∃ raw, readModel model = .ok raw

def rawModel (model : Option PyValue) : Text := (string? model).getD []

theorem readModel_eq {model : Option PyValue} {raw : Text} (h : readModel model = .ok raw) :
    raw = rawModel model := by
  rw [readModel.eq_def] at h
  split at h
  · cases h
    rfl
  · rename_i value hvalue
    split at h
    · cases h
    · cases h
      rw [rawModel, string?]
      · rfl
      · exact fun s hs => hvalue s (Option.some.inj hs)
  · cases h
    rfl

/-- The counts of the usage block that are copied. -/
def countKeys : List String :=
  ["input_tokens", "output_tokens", "cache_read_input_tokens", "cache_creation_input_tokens"]

/-- A response as the endpoint wants it. -/
structure WellShaped (parsesDatetime : Text → Bool) (response : Response) : Prop where
  id : ident 256 response.id = true
  timestamp : parsesDatetime response.timestamp = true
  model : (modelKept (rawModel response.model)).length ≤ 256
  counts : ∀ key ∈ countKeys, int (get response.usage key) ≤ maxTokens

variable {parsesDatetime : Text → Bool}

theorem acceptsEvent_iff_fields (event : UsageEvent) : acceptsEvent parsesDatetime event = true ↔
      ident 256 event.sourceEventId = true ∧ parsesDatetime event.timestamp = true ∧
        ident 128 event.provider = true ∧ ident 256 event.model = true ∧
        event.inputTokens ≤ maxTokens ∧ event.outputTokens ≤ maxTokens ∧
        event.cacheReadTokens ≤ maxTokens ∧ event.cacheWriteTokens ≤ maxTokens ∧
        event.cacheWrite1hTokens ≤ maxTokens ∧ ident 256 event.sessionLabel = true := by
  simp [acceptsEvent, and_assoc]

/-- **The endpoint accepts the event of a response that is as it wants it.** -/
theorem acceptsEvent_iff (response : Response) (projectDir labelPrefix home : Text) :
    acceptsEvent parsesDatetime
        (response.event (rawModel response.model) (sessionLabel projectDir labelPrefix home)) = true ↔
      WellShaped parsesDatetime response := by
  rw [acceptsEvent_iff_fields]
  constructor
  · rintro ⟨hid, htime, -, hident, hin, hout, hread, hwrite, -, -⟩
    refine ⟨hid, htime, (ident_normalizeModel _).mp hident, ?_⟩
    simpa [countKeys] using ⟨hin, hout, hread, hwrite⟩
  · intro h
    have hcounts := h.counts
    simp only [countKeys, forall_mem_cons, not_mem_nil, false_imp_iff, implies_true,
      and_true] at hcounts
    obtain ⟨hin, hout, hread, hwrite⟩ := hcounts
    exact ⟨h.id, h.timestamp, ident_providerForModel _, (ident_normalizeModel _).mpr h.model, hin,
      hout, hread, hwrite, (min_le_right _ _).trans hwrite, ident_sessionLabel ..⟩

/-! ### What a scan keeps -/

/-- The response of a line that carries usage and is not synthetic. -/
def lineResponse (line : Line) : Option Response :=
  if line.mentionsUsage then
    (dict? line.loads).bind fun record => if isSynthetic record then none else response? record
  else none

/-- The responses of a transcript, each with the transcript's label. -/
def fileResponses (labelPrefix home : Text) (file : Transcript) : List (Response × Text) :=
  file.lines.flatMap fun line =>
    (lineResponse line).toList.map (·, sessionLabel file.projectDir labelPrefix home)

/-- The responses of the transcripts, in the order they are read. -/
def responses (labelPrefix home : Text) (files : List Transcript) : List (Response × Text) :=
  files.flatMap (fileResponses labelPrefix home)

def kept (labelPrefix home : Text) (files : List Transcript) : List (Response × Text) :=
  Distinct.firsts (·.1.id) (responses labelPrefix home files)

def eventOf (response : Response × Text) : UsageEvent :=
  response.1.event (rawModel response.1.model) response.2

def Seen (s : ScanResult) : Prop := s.seen = s.events.map (·.sourceEventId)

def Takes (taken : List (Response × Text)) (s s' : ScanResult) : Prop :=
  Seen s → Seen s' ∧ s'.events = (taken.map eventOf).foldl (Distinct.keep (·.sourceEventId)) s.events

theorem Takes.nil (s : ScanResult) : Takes [] s s := fun h => ⟨h, rfl⟩

theorem Takes.append {xs ys : List (Response × Text)} {s t u : ScanResult} (h : Takes xs s t)
    (h' : Takes ys t u) : Takes (xs ++ ys) s u := by
  intro hs
  obtain ⟨ht, hevents⟩ := h hs
  obtain ⟨hu, hevents'⟩ := h' ht
  refine ⟨hu, ?_⟩
  rw [hevents', hevents, map_append, foldl_append]

variable {line : Line}

theorem line_of_none (h : lineResponse line = none) (s : ScanResult) (label : Text) :
    ∃ s', s.line label line = .ok s' ∧ s'.events = s.events ∧ s'.seen = s.seen := by
  rw [ScanResult.line]
  rw [lineResponse] at h
  split
  · exact ⟨_, rfl, rfl, rfl⟩
  · rename_i hmention
    rw [if_pos (by simpa using hmention)] at h
    split
    · exact ⟨_, rfl, rfl, rfl⟩
    · rename_i record hload
      split
      · exact ⟨_, rfl, rfl, rfl⟩
      · rename_i hdict
        have hrecord : dict? line.loads = some record := by
          rw [hload, dict?, Option.filter_some_pos (by simpa using hdict)]
        rw [hrecord, Option.bind_some] at h
        split
        · exact ⟨_, rfl, rfl, rfl⟩
        · rename_i hsynthetic
          rw [if_neg hsynthetic] at h
          exact ⟨s, by rw [usageEvent, h]; rfl, rfl, rfl⟩

theorem record_of_lineResponse {response : Response} (h : lineResponse line = some response) :
    line.mentionsUsage = true ∧ ∃ record : PyValue, line.loads = some record ∧
      record.isDict = true ∧ isSynthetic record = false ∧ response? record = some response := by
  rw [lineResponse] at h
  split at h
  · rename_i hmention
    obtain ⟨record, hrecord, h⟩ := Option.bind_eq_some_iff.mp h
    obtain ⟨hload, hdict⟩ := Option.filter_eq_some_iff.mp hrecord
    by_cases hsynthetic : isSynthetic record = true
    · rw [if_pos hsynthetic] at h
      cases h
    · rw [if_neg hsynthetic] at h
      exact ⟨hmention, record, hload, hdict, by simpa using hsynthetic, h⟩
  · cases h

theorem line_of_some {response : Response} (h : lineResponse line = some response)
    (s : ScanResult) (label : Text) :
    s.line label line = (readModel response.model).map fun raw => s.add (response.event raw label) := by
  obtain ⟨hmention, record, hload, hdict, hsynthetic, hresponse⟩ := record_of_lineResponse h
  simp only [ScanResult.line, hmention, hload, hdict, hsynthetic, usageEvent, hresponse]
  cases readModel response.model <;> rfl

theorem takes_of_add (s : ScanResult) (response : Response × Text) :
    Takes [response] s (s.add (eventOf response)) := by
  intro hs
  rw [map_singleton, foldl_cons, foldl_nil, Distinct.keep, ScanResult.add, ← hs]
  by_cases hmem : (eventOf response).sourceEventId ∈ s.seen
  · rw [if_pos hmem, if_pos hmem]
    exact ⟨hs, rfl⟩
  · rw [if_neg hmem, if_neg hmem]
    refine ⟨?_, rfl⟩
    rw [Seen, map_append, ← hs]
    rfl

theorem takes_of_line {label : Text} {s s' : ScanResult} (h : s.line label line = .ok s') :
    Takes ((lineResponse line).toList.map (·, label)) s s' := by
  cases hresponse : lineResponse line with
  | none =>
    obtain ⟨t, ht, hevents, hseen⟩ := line_of_none hresponse s label
    rw [ht] at h
    cases h
    intro hs
    exact ⟨by rw [Seen, hseen, hs, hevents], hevents⟩
  | some response =>
    rw [line_of_some hresponse] at h
    cases hmodel : readModel response.model with
    | error e =>
      rw [hmodel] at h
      cases h
    | ok raw =>
      rw [hmodel] at h
      cases h
      rw [readModel_eq hmodel]
      exact takes_of_add s (response, label)

theorem takes_of_transcript {labelPrefix home : Text} {s s' : ScanResult} {file : Transcript}
    (h : s.transcript labelPrefix home file = .ok s') :
    Takes (fileResponses labelPrefix home file) s s' := by
  exact foldlM_ok h _ Takes Takes.nil Takes.append fun _ _ _ => takes_of_line

/-- **A scan keeps the first response of each id**, in some order. -/
theorem perm_of_scan {labelPrefix home : Text} {files : List Transcript} {result : ScanResult}
    (h : scanTranscripts labelPrefix home files = .ok result) :
    result.events.Perm ((kept labelPrefix home files).map eventOf) := by
  rw [scanTranscripts] at h
  cases hrun : files.foldlM (ScanResult.transcript labelPrefix home) {} with
  | error e =>
    rw [hrun] at h
    cases h
  | ok s =>
    rw [hrun] at h
    cases h
    obtain ⟨-, hevents⟩ :=
      foldlM_ok hrun (fileResponses labelPrefix home) Takes Takes.nil Takes.append
        (fun _ _ _ => takes_of_transcript) rfl
    have hkept : s.events = (kept labelPrefix home files).map eventOf := by
      rw [hevents, Distinct.foldl_keep, kept, responses, nil_append,
        filter_eq_self.mpr fun _ _ => by simp]
      exact Distinct.firsts_map eventOf _
    rw [← hkept]
    exact mergeSort_perm ..

/-- **A scan returns where every model it reads is a string or false.** -/
theorem scan_returns (labelPrefix home : Text) (files : List Transcript) :
    (∃ result, scanTranscripts labelPrefix home files = .ok result) ↔
      ∀ response ∈ responses labelPrefix home files, ReadableModel response.1.model := by
  have hline (label : Text) (s : ScanResult) (line : Line) :
      (∃ s', s.line label line = .ok s') ↔
        ∀ response ∈ (lineResponse line).toList.map (·, label),
          ReadableModel (response : Response × Text).1.model := by
    cases hresponse : lineResponse line with
    | none =>
      obtain ⟨t, ht, -, -⟩ := line_of_none hresponse s label
      exact ⟨fun _ _ h => (nomatch h), fun _ => ⟨t, ht⟩⟩
    | some response =>
      rw [line_of_some hresponse]
      cases hmodel : readModel response.model with
      | error e => simp [ReadableModel, hmodel, Except.map]
      | ok raw => simp [ReadableModel, hmodel, Except.map]
  have hfile (s : ScanResult) (file : Transcript) :
      (∃ s', s.transcript labelPrefix home file = .ok s') ↔
        ∀ response ∈ fileResponses labelPrefix home file, ReadableModel response.1.model := by
    rw [ScanResult.transcript, foldlM_returns (hline _), fileResponses]
    simp only [mem_flatMap]
    constructor
    · rintro hall response ⟨l, hl, hmem⟩
      exact hall l hl response hmem
    · intro hall l hl response hmem
      exact hall response ⟨l, hl, hmem⟩
  have hrun : (∃ result, scanTranscripts labelPrefix home files = .ok result) ↔
      ∃ s, files.foldlM (ScanResult.transcript labelPrefix home) {} = .ok s := by
    rw [scanTranscripts]
    cases files.foldlM (ScanResult.transcript labelPrefix home) {} <;> simp [Except.map]
  rw [hrun, foldlM_returns hfile, responses]
  simp only [mem_flatMap]
  constructor
  · rintro hall response ⟨file, hfile, hmem⟩
    exact hall file hfile response hmem
  · intro hall file hfile response hmem
    exact hall response ⟨file, hfile, hmem⟩

/-! ### What is posted -/

theorem batch_of_batches {batchSize : ℕ} (hpos : 1 ≤ batchSize) (hmax : batchSize ≤ maxEventsPerBatch)
    {events : List UsageEvent} (hne : events ≠ []) {batch : List UsageEvent}
    (h : batch ∈ batches batchSize events) :
    1 ≤ batch.length ∧ batch.length ≤ maxEventsPerBatch ∧ ∀ event ∈ batch, event ∈ events := by
  have hlength : 1 ≤ events.length := length_pos_of_ne_nil hne
  rcases mem_cons.mp h with rfl | hslice
  · refine ⟨by simp [hlength], ?_, fun event hevent => mem_of_mem_take hevent⟩
    exact (length_take_le _ _).trans (by decide)
  · obtain ⟨start, hstart, rfl⟩ := mem_map.mp hslice
    obtain ⟨i, hi, rfl⟩ := mem_range'.mp hstart
    have hwithin : (i + 1) * batchSize ≤ events.length - 1 + (batchSize - 1) :=
      (Nat.le_div_iff_mul_le hpos).mp hi
    have hcomm : (i + 1) * batchSize = batchSize * i + batchSize := by ring
    refine ⟨?_, (length_take_le _ _).trans hmax,
      fun event hevent => mem_of_mem_drop (mem_of_mem_take hevent)⟩
    rw [length_take, length_drop]
    omega

variable (parsesDatetime) in
/-- What is claimed of a scan: the endpoint accepts its events and its batches, and they are of
responses of their own. -/
structure Importable (labelPrefix home : Text) (files : List Transcript) (result : ScanResult) :
    Prop where
  events : ∀ event ∈ result.events, acceptsEvent parsesDatetime event = true
  batches : ∀ batchSize, 1 ≤ batchSize → batchSize ≤ maxEventsPerBatch → result.events ≠ [] →
    ∀ batch ∈ batches batchSize result.events, acceptsEvents parsesDatetime batch = true
  within : ∀ event ∈ result.events, event.cacheWrite1hTokens ≤ event.cacheWriteTokens
  once : (result.events.map (·.sourceEventId)).Nodup
  notSynthetic : ∀ event ∈ result.events, ∃ file ∈ files, ∃ line ∈ file.lines, ∃ record,
    line.loads = some record ∧ isSynthetic record = false ∧
      usageEvent record (sessionLabel file.projectDir labelPrefix home) = .ok (some event)

theorem line_of_mem_kept {labelPrefix home : Text} {files : List Transcript}
    {response : Response × Text} (h : response ∈ kept labelPrefix home files) :
    ∃ file ∈ files, ∃ line ∈ file.lines, lineResponse line = some response.1 ∧
      response.2 = sessionLabel file.projectDir labelPrefix home := by
  obtain ⟨file, hfile, hmem⟩ := mem_flatMap.mp (Distinct.mem_of_mem_firsts h)
  obtain ⟨line, hline, hmem⟩ := mem_flatMap.mp hmem
  obtain ⟨found, hfound, rfl⟩ := mem_map.mp hmem
  exact ⟨file, hfile, line, hline, Option.mem_toList.mp hfound, rfl⟩

/-- **A scan is importable if and only if the responses it keeps are as the endpoint wants them.** -/
theorem importable_iff {labelPrefix home : Text} {files : List Transcript} {result : ScanResult}
    (h : scanTranscripts labelPrefix home files = .ok result) :
    Importable parsesDatetime labelPrefix home files result ↔
      ∀ response ∈ kept labelPrefix home files, WellShaped parsesDatetime response.1 := by
  have hperm := perm_of_scan h
  have hmem {event : UsageEvent} : event ∈ result.events ↔
      ∃ response ∈ kept labelPrefix home files, eventOf response = event :=
    hperm.mem_iff.trans List.mem_map
  have haccepts {response : Response × Text} (hresponse : response ∈ kept labelPrefix home files) :
      acceptsEvent parsesDatetime (eventOf response) = true ↔
        WellShaped parsesDatetime response.1 := by
    obtain ⟨file, -, line, -, -, hlabel⟩ := line_of_mem_kept hresponse
    rw [eventOf, hlabel]
    exact acceptsEvent_iff ..
  constructor
  · intro himport response hresponse
    exact (haccepts hresponse).mp (himport.events _ (hmem.mpr ⟨response, hresponse, rfl⟩))
  · intro hshaped
    have hevents : ∀ event ∈ result.events, acceptsEvent parsesDatetime event = true := by
      intro event hevent
      obtain ⟨response, hresponse, rfl⟩ := hmem.mp hevent
      exact (haccepts hresponse).mpr (hshaped response hresponse)
    refine ⟨hevents, ?_, ?_, ?_, ?_⟩
    · intro batchSize hpos hmax hne batch hbatch
      obtain ⟨hlength, hlength', hsub⟩ := batch_of_batches hpos hmax hne hbatch
      simp only [acceptsEvents, Bool.and_eq_true, decide_eq_true_eq, List.all_eq_true]
      exact ⟨⟨hlength, hlength'⟩, fun event hevent => hevents event (hsub event hevent)⟩
    · intro event hevent
      obtain ⟨response, -, rfl⟩ := hmem.mp hevent
      exact min_le_right _ _
    · rw [(hperm.map _).nodup_iff, List.map_map]
      exact Distinct.nodup_firsts (responses labelPrefix home files)
    · intro event hevent
      obtain ⟨response, hresponse, rfl⟩ := hmem.mp hevent
      obtain ⟨file, hfile, line, hline, hline', hlabel⟩ := line_of_mem_kept hresponse
      obtain ⟨-, record, hload, -, hsynthetic, hrecord⟩ := record_of_lineResponse hline'
      obtain ⟨raw, hraw⟩ := (scan_returns labelPrefix home files).mp ⟨result, h⟩ response
        (Distinct.mem_of_mem_firsts hresponse)
      refine ⟨file, hfile, line, hline, record, hload, hsynthetic, ?_⟩
      rw [usageEvent, hrecord, eventOf, hlabel, ← readModel_eq hraw]
      simp only [hraw]
      rfl

/-- A transcript of one response for each id. -/
def responsesOf (ids : List String) : List Transcript :=
  [{ projectDir := "-Users-alice-otari".toList
     lines := ids.map fun id => {
       mentionsUsage := true
       loads := some (.dict [
         ("timestamp", .scalar (.str "2026-01-01T00:00:00Z")),
         ("message", .dict [
           ("id", .scalar (.str id)), ("model", .scalar (.str "claude-sonnet-4-5")),
           ("usage", .dict [("input_tokens", .scalar (.int 3))])])]) } }]

/-- What a scan of it returns, where all but `skipped` ids are new. -/
def scannedOf (ids : List String) (skipped : ℕ) : ScanResult where
  events := ids.map fun id => {
    sourceEventId := id.toList, timestamp := "2026-01-01T00:00:00Z".toList
    provider := "anthropic".toList, model := "claude-sonnet-4-5".toList
    inputTokens := 3, outputTokens := 0, cacheReadTokens := 0, cacheWriteTokens := 0
    cacheWrite1hTokens := 0, sessionLabel := "host:otari".toList }
  filesScanned := 1
  duplicatesSkipped := skipped
  seen := ids.map String.toList

/-- It is of two responses, the first written twice. -/
theorem importable_iff_two :
    Importable (fun _ => true) "host".toList "/Users/alice".toList
        (responsesOf ["msg_1", "msg_1", "msg_2"]) (scannedOf ["msg_1", "msg_2"] 1) ↔
      ∀ response ∈ kept "host".toList "/Users/alice".toList (responsesOf ["msg_1", "msg_1", "msg_2"]),
        WellShaped (fun _ => true) response.1 := by
  have h : scanTranscripts "host".toList "/Users/alice".toList
      (responsesOf ["msg_1", "msg_1", "msg_2"]) = .ok (scannedOf ["msg_1", "msg_2"] 1) := by
    have hread : (responsesOf ["msg_1", "msg_1", "msg_2"]).foldlM (ScanResult.transcript
        "host".toList "/Users/alice".toList) {} = .ok (scannedOf ["msg_1", "msg_2"] 1) := by
      decide +kernel
    rw [scanTranscripts, hread, Except.map, sortEvents, List.mergeSort_of_pairwise (by decide +kernel)]
  exact importable_iff h

/-- A response whose id has a space in it makes an event the endpoint refuses. -/
theorem spaced_not_importable :
    scanTranscripts "host".toList "/Users/alice".toList (responsesOf ["msg 1"]) =
        .ok (scannedOf ["msg 1"] 0) ∧
      ∃ event ∈ (scannedOf ["msg 1"] 0).events, acceptsEvent (fun _ => true) event = false := by
  refine ⟨?_, _, List.mem_singleton_self _, by decide +kernel⟩
  decide +kernel

end Otari.Transcripts

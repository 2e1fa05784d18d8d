import Otari.Policy.ShellWords
import Otari.Pricing.PriceRates
import Otari.Support.Utf8

/-!
# Policy — Transcript — the commands a session ran

`hook.py` reads a session's transcript a record a line (`hookCollectTranscriptCommands`), numbers the
calls of the shell and of the edit tools as they come, and keeps the commands numbered past the last
edit, leaving out the calls a `PreToolUse` hook denied.

What it is to return is `sessionCommands`, read off the transcript's lines.  The reader breaks lines
at more than newlines, and looks a tool's name up in a dictionary whatever it is: **where each line
says in its pieces what it says whole, the commands are exact if and only if every tool is named by a
value that can be looked up** (`sessionExact_iff`).  A line that holds no other line boundary is such
a line (`whole_of_unbroken`).
-/

namespace Otari.Policy
open List
open Access (strip)
open Documents (Json get)
open PriceRates (truthy)
open Utf8 (decode translateNewlines)

/-! ### The reader -/

/-- What `str.splitlines` breaks lines at. -/
def isLineBoundary (c : Char) : Bool :=
  c.toNat ∈ [0xA, 0xB, 0xC, 0xD, 0x1C, 0x1D, 0x1E, 0x85, 0x2028, 0x2029]

/-- `str.splitlines`, from the line begun. -/
def splitLinesFrom (line : Text) : Text → List Text
  | [] => if line.isEmpty then [] else [line]
  | '\r' :: '\n' :: rest => line :: splitLinesFrom [] rest
  | c :: rest =>
    if isLineBoundary c then line :: splitLinesFrom [] rest else splitLinesFrom (line ++ [c]) rest

def splitLines (text : Text) : List Text := splitLinesFrom [] text

def isString (value : Option Json) (text : String) : Bool :=
  match value with
  | some (.str s) => s = text
  | _ => false

def string? : Option Json → Option Text
  | some (.str s) => some s.toList
  | _ => none

/-- `_HOOK_EDIT_TOOL_PATH_FIELDS`. -/
def editTools : List (String × String) :=
  [("Edit", "file_path"), ("Write", "file_path"), ("NotebookEdit", "notebook_path")]

/-- A list or an object is no key of a dictionary. -/
inductive TypeError where
  | unhashable
deriving DecidableEq

/-- `name in _HOOK_EDIT_TOOL_PATH_FIELDS`. -/
def isEditTool : Option Json → Except TypeError Bool
  | some (.str s) => .ok (editTools.any (·.1 = s))
  | some (.arr _) => .error .unhashable
  | some (.obj _) => .error .unhashable
  | _ => .ok false

/-- `_PRETOOLUSE_DENIAL_MARKERS`. -/
def denialMarkers : List Text := ["PreToolUse:".toList, "hook error:".toList]

/-- `_tool_result_text`. -/
def toolResultText : Option Json → Text
  | some (.str s) => s.toList
  | some (.arr content) => [' '].intercalate (content.filterMap fun
      | .obj fields => string? (get fields "text")
      | _ => none)
  | _ => []

def saysDenied (text : Text) : Bool := denialMarkers.all fun marker => decide (marker <:+: text)

/-- The variables of `_hook_collect_transcript_commands`. -/
structure Session where
  requested : List (Option Text × Text × ℕ) := []
  editPositions : List (Option Text × ℕ) := []
  deniedIds : List Text := []
  position : ℕ := 0

def Session.request (session : Session) (id : Option Text) (command : Text) : Session :=
  { session with
    requested := session.requested ++ [(id, command, session.position + 1)]
    position := session.position + 1 }

def Session.edit (session : Session) (id : Option Text) : Session :=
  { session with
    editPositions :=
      (id, session.position + 1) :: session.editPositions.filter fun entry => entry.1 ≠ id
    position := session.position + 1 }

def Session.deny (session : Session) (id : Text) : Session :=
  { session with deniedIds := id :: session.deniedIds }

def commandOf (fields : Documents.Fields) : Option Text :=
  match get fields "input" with
  | some (.obj input) => (string? (get input "command")).filter (!·.isEmpty)
  | _ => none

/-- A turn of the loop over a record's content. -/
def Session.block (session : Session) : Json → Except TypeError Session
  | .obj fields =>
    let blockType := get fields "type"
    let name := get fields "name"
    if isString blockType "tool_use" ∧ isString name "Bash" then
      match commandOf fields with
      | some command => .ok (session.request (string? (get fields "id")) command)
      | none => .ok session
    else if isString blockType "tool_use" then
      match isEditTool name with
      | .error e => .error e
      | .ok true => .ok (session.edit (string? (get fields "id")))
      | .ok false => .ok session
    else if isString blockType "tool_result" ∧ (get fields "is_error").any truthy then
      match string? (get fields "tool_use_id") with
      | some id =>
        if saysDenied (toolResultText (get fields "content")) then .ok (session.deny id)
        else .ok session
      | none => .ok session
    else .ok session
  | _ => .ok session

def Session.allows (session : Session) (id : Option Text) : Bool :=
  id.all (· ∉ session.deniedIds)

/-- `last_edit_position`. -/
def Session.lastEditPosition (session : Session) : ℕ :=
  ((session.editPositions.filter fun entry => session.allows entry.1).map (·.2)).foldr max 0

def Session.commands (session : Session) : List Text :=
  (session.requested.filter fun call =>
    session.allows call.1 && decide (session.lastEditPosition < call.2.2)).map (·.2.1)

def recordBlocks : Json → List Json
  | .obj fields =>
    if (get fields "isSidechain").any truthy then []
    else
      match get fields "message" with
      | some (.obj message) =>
        match get message "content" with
        | some (.arr content) => content
        | _ => []
      | _ => []
  | _ => []

section
variable (loads : Text → Option Json)

/-- The records of the lines that are not blank, a malformed one left out. -/
def readRecords (lines : List Text) : List Json :=
  (lines.filter fun line => !(strip line).isEmpty).filterMap loads

/-- `_hook_collect_transcript_commands`, of the bytes of the file where it can be read. -/
def hookCollectTranscriptCommands (file : Option (List UInt8)) :
    Except TypeError (Option (List Text)) :=
  match file with
  | none => .ok none
  | some bytes => do
    let lines := splitLines (translateNewlines (decode bytes))
    let session ← ((readRecords loads lines).flatMap recordBlocks).foldlM Session.block {}
    return some session.commands

/-! ### The commands a session ran -/

inductive Event where
  | bash (id : Option Text) (command : Text)
  | edit (id : Option Text)
  | denial (id : Text)
deriving DecidableEq

def blockEvent : Json → Option Event
  | .obj fields =>
    if isString (get fields "type") "tool_use" then
      if isString (get fields "name") "Bash" then
        (commandOf fields).map (.bash (string? (get fields "id")))
      else if editTools.any fun tool => isString (get fields "name") tool.1 then
        some (.edit (string? (get fields "id")))
      else none
    else if isString (get fields "type") "tool_result" ∧ (get fields "is_error").any truthy ∧
        saysDenied (toolResultText (get fields "content")) then
      (string? (get fields "tool_use_id")).map .denial
    else none
  | _ => none

def Denied (events : List Event) (id : Option Text) : Prop := ∃ text ∈ id, .denial text ∈ events

instance (events : List Event) (id : Option Text) : Decidable (Denied events id) :=
  match id with
  | none => isFalse fun ⟨_, h, _⟩ => by cases h
  | some text => decidable_of_iff (.denial text ∈ events)
      ⟨fun h => ⟨text, rfl, h⟩, fun ⟨_, h, hmem⟩ => Option.some.inj h ▸ hmem⟩

def isExecutedEdit (events : List Event) : Event → Bool
  | .edit id => !decide (Denied events id)
  | _ => false

def executedCommand (events : List Event) : Event → Option Text
  | .bash id command => if Denied events id then none else some command
  | _ => none

/-- The events of a part since its last executed edit. -/
def sinceLastEdit (events part : List Event) : List Event :=
  (part.reverse.takeWhile (!isExecutedEdit events ·)).reverse

/-- A line of the file: bytes with no newline. -/
abbrev LineBytes := { bytes : List UInt8 // 10 ∉ bytes }

def LineBytes.text (line : LineBytes) : Text := decode line.1

/-- The lines as the file holds them, each ended by a newline. -/
def transcript (lines : List LineBytes) : List UInt8 := lines.flatMap fun line => line.1 ++ [10]

def blocksOf (texts : List Text) : List Json := (readRecords loads texts).flatMap recordBlocks

def eventsOf (texts : List Text) : List Event := (blocksOf loads texts).filterMap blockEvent

/-- **The commands run since the last executed edit**, in order. -/
def sessionCommands (lines : List LineBytes) : List Text :=
  let events := eventsOf loads (lines.map LineBytes.text)
  (sinceLastEdit events events).filterMap (executedCommand events)

/-- The commands collected are those, and a gate is satisfied by none other. -/
structure SessionExact (lines : List LineBytes) : Prop where
  returned : hookCollectTranscriptCommands loads (some (transcript lines)) =
    .ok (some (sessionCommands loads lines))
  satisfied : ∀ (gate : CommandIfChangedGate) (paths : PathEvidence) (commands : List Text)
    (result : GateResult), hookCollectTranscriptCommands loads (some (transcript lines)) =
      .ok (some commands) →
    evaluateCommandIfChanged gate (some paths) (some { commands, scope := .session }) = .ok result →
    result.outcome = .pass →
      ∃ command ∈ sessionCommands loads lines, ∃ phrase ∈ gate.require, ∃ tokens,
        tokenizePhrase phrase = .ok tokens ∧ commandMatches [tokens] command = true

def LineBytes.pieces (line : LineBytes) : List Text :=
  splitLines (translateNewlines (line.text ++ ['\n']))

/-- The pieces of the line say of the session what the line says. -/
def Whole (line : LineBytes) : Prop := eventsOf loads line.pieces = eventsOf loads [line.text]

/-- A value that can be looked up. -/
def hashable : Json → Bool
  | .arr _ | .obj _ => false
  | _ => true

/-- The tool of a call is named by a value that can be looked up. -/
def NameHashable : Json → Prop
  | .obj fields => isString (get fields "type") "tool_use" = true →
      (get fields "name").all hashable = true
  | _ => True

instance : DecidablePred NameHashable
  | .obj fields => inferInstanceAs (Decidable (isString (get fields "type") "tool_use" = true →
      (get fields "name").all hashable = true))
  | .null | .bool _ | .num _ | .str _ | .arr _ => isTrue trivial

end

/-! ### Lines -/

theorem exists_translateNewlines_line (text : Text) : ∃ line, ∀ rest,
    translateNewlines (text ++ '\n' :: rest) = line ++ '\n' :: translateNewlines rest := by
  fun_induction translateNewlines text with
  | case1 => exact ⟨[], fun rest => Utf8.translateNewlines_cons (by decide) rest⟩
  | case2 text ih =>
    obtain ⟨line, h⟩ := ih
    refine ⟨'\n' :: line, fun rest => ?_⟩
    rw [cons_append, cons_append, translateNewlines, h, cons_append]
  | case3 text hnext ih =>
    cases text with
    | nil => exact ⟨[], fun rest => rfl⟩
    | cons d text =>
      obtain ⟨line, h⟩ := ih
      refine ⟨'\n' :: line, fun rest => ?_⟩
      rw [cons_append, translateNewlines, h, cons_append]
      rintro _ hd
      exact hnext _ (by rw [(List.cons.inj hd).1])
  | case4 d text _ hd ih =>
    obtain ⟨line, h⟩ := ih
    refine ⟨d :: line, fun rest => ?_⟩
    rw [cons_append, Utf8.translateNewlines_cons hd, h, cons_append]

theorem splitLinesFrom_cons {c : Char} {rest : Text} (h : c = '\r' → rest.head? ≠ some '\n')
    (line : Text) : splitLinesFrom line (c :: rest) =
      if isLineBoundary c then line :: splitLinesFrom [] rest else splitLinesFrom (line ++ [c]) rest := by
  rw [splitLinesFrom]
  rintro tail rfl rfl
  exact h rfl rfl

theorem splitLinesFrom_newline (line rest : Text) :
    splitLinesFrom line ('\n' :: rest) = line :: splitLines rest := by
  rw [splitLinesFrom_cons (fun h => absurd h (by decide)), if_pos (by decide), splitLines]

theorem splitLinesFrom_line (line text rest : Text) : splitLinesFrom line (text ++ '\n' :: rest) =
      splitLinesFrom line (text ++ ['\n']) ++ splitLines rest := by
  fun_induction splitLinesFrom line text with
  | case1 line hline => 
      rw [nil_append, nil_append, splitLinesFrom_newline, splitLinesFrom_newline]
      rfl
  | case2 line hline =>
    rw [nil_append, nil_append, splitLinesFrom_newline, splitLinesFrom_newline]
    rfl
  | case3 line text ih =>
    rw [cons_append, cons_append, splitLinesFrom, ih, cons_append,
      cons_append, splitLinesFrom, cons_append]
  | case4 line c text hnext hc ih =>
    cases text with
    | nil =>
      by_cases hcr : c = '\r'
      · subst hcr
        simp [splitLinesFrom, splitLines]
      · rw [cons_append, splitLinesFrom_cons (absurd · hcr), if_pos hc, ih, cons_append,
          splitLinesFrom_cons (absurd · hcr), if_pos hc, cons_append]
    | cons d text =>
      have hhead : ∀ rest : Text, c = '\r' → (d :: text ++ rest).head? ≠ some '\n' := by
        rintro rest hcr h
        exact hnext text hcr (by rw [Option.some.inj h])
      have hline : splitLinesFrom line (c :: d :: text ++ ['\n']) =
          line :: splitLinesFrom [] (d :: text ++ ['\n']) := by
        rw [cons_append, splitLinesFrom_cons (hhead _), if_pos hc]
      rw [cons_append, splitLinesFrom_cons (hhead _), if_pos hc, ih, hline, cons_append,
        cons_append]
  | case5 line c text _ hc ih =>
    have hcr : c ≠ '\r' := by rintro rfl; exact hc (by decide)
    rw [cons_append, splitLinesFrom_cons (absurd · hcr), if_neg hc, ih, cons_append,
      splitLinesFrom_cons (absurd · hcr), if_neg hc]

/-- **The file is read a line at a time.** -/
theorem splitLines_transcript (lines : List LineBytes) :
    splitLines (translateNewlines (decode (transcript lines))) = lines.flatMap LineBytes.pieces := by
  induction lines with
  | nil => rfl
  | cons line lines ih =>
    have hbytes : transcript (line :: lines) = line.1 ++ 10 :: transcript lines := by
      simp [transcript]
    have hfile : decode (transcript (line :: lines)) =
        line.text ++ '\n' :: decode (transcript lines) := by
      rw [hbytes, Utf8.decode_append_ascii line.1 (by decide)]
      rfl
    obtain ⟨text, htext⟩ := exists_translateNewlines_line line.text
    rw [hfile, htext, splitLines, splitLinesFrom_line, ih, flatMap_cons, LineBytes.pieces,
      htext]
    rfl

theorem pieces_of_unbroken {line : LineBytes} (h : line.text.any isLineBoundary = false) :
    line.pieces = [line.text] := by
  have hplain : ∀ c ∈ line.text, isLineBoundary c = false := by simpa using h
  have hcr : '\r' ∉ line.text ++ ['\n'] := by
    intro hmem
    rcases mem_append.mp hmem with hmem | hmem
    · exact absurd (hplain _ hmem) (by decide)
    · exact absurd hmem (by decide)
  have hread : ∀ text begun : Text, (∀ c ∈ text, isLineBoundary c = false) →
      splitLinesFrom begun (text ++ ['\n']) = [begun ++ text] := by
    intro text
    induction text with
    | nil => 
        intro begun _
        rw [nil_append, splitLinesFrom_newline, append_nil]
        rfl
    | cons c text ih =>
      intro begun htext
      have hc : isLineBoundary c = false := htext c mem_cons_self
      rw [cons_append, splitLinesFrom_cons, if_neg (by simp [hc]),
        ih _ fun d hd => htext d (mem_cons_of_mem _ hd), append_assoc]
      · rfl
      · rintro rfl
        exact absurd hc (by decide)
  rw [LineBytes.pieces, Utf8.translateNewlines_of_not_mem hcr, splitLines, hread _ _ hplain,
    nil_append]

theorem whole_of_unbroken {loads : Text → Option Json} {line : LineBytes}
    (h : line.text.any isLineBoundary = false) : Whole loads line := by
  rw [Whole, pieces_of_unbroken h]

/-! ### The session read -/

def Session.note (session : Session) : Event → Session
  | .bash id command => session.request id command
  | .edit id => session.edit id
  | .denial id => session.deny id

theorem isEditTool_ok {name : Option Json} (h : name.all hashable = true) :
    isEditTool name = .ok (editTools.any fun tool => isString name tool.1) := by
  cases name with
  | none => rfl
  | some value =>
    cases value with
    | arr items => cases h
    | obj members => cases h
    | str s =>
      simp only [isEditTool, isString, Except.ok.injEq]
      congr 1
      funext tool
      exact decide_eq_decide.mpr eq_comm
    | _ => rfl

theorem Session.block_ok (session : Session) {block : Json} (h : NameHashable block) :
    session.block block = .ok ((blockEvent block).elim session session.note) := by
  cases block with
  | obj fields =>
    rw [Session.block, blockEvent]
    by_cases huse : isString (get fields "type") "tool_use" = true
    · by_cases hbash : isString (get fields "name") "Bash" = true
      · rw [if_pos ⟨huse, hbash⟩, if_pos huse, if_pos hbash]
        cases commandOf fields <;> rfl
      · rw [if_neg (hbash ·.2), if_pos huse, if_pos huse, if_neg hbash, isEditTool_ok (h huse)]
        cases editTools.any fun tool => isString (get fields "name") tool.1 <;> rfl
    · rw [if_neg (huse ·.1), if_neg huse, if_neg huse]
      by_cases hresult : isString (get fields "type") "tool_result" = true ∧
          (get fields "is_error").any truthy = true
      · rw [if_pos hresult]
        by_cases hdenied : saysDenied (toolResultText (get fields "content")) = true
        · rw [if_pos ⟨hresult.1, hresult.2, hdenied⟩]
          cases string? (get fields "tool_use_id") with
          | none => rfl
          | some id => exact if_pos hdenied
        · rw [if_neg (hdenied ·.2.2)]
          cases string? (get fields "tool_use_id") with
          | none => rfl
          | some id => exact if_neg hdenied
      · rw [if_neg hresult, if_neg fun hall => hresult ⟨hall.1, hall.2.1⟩]
        rfl
  | _ => rfl

theorem Session.block_error (session : Session) {block : Json} (h : ¬ NameHashable block) :
    session.block block = .error .unhashable := by
  cases block with
  | obj fields =>
    rw [NameHashable, Classical.not_imp] at h
    obtain ⟨huse, h⟩ := h
    cases hname : get fields "name" with
    | none => exact absurd (by rw [hname]; rfl) h
    | some value =>
      cases value with
      | arr items =>
        rw [Session.block, hname, if_neg fun hbash => Bool.noConfusion hbash.2, if_pos huse]
        rfl
      | obj members =>
        rw [Session.block, hname, if_neg fun hbash => Bool.noConfusion hbash.2, if_pos huse]
        rfl
      | _ => exact absurd (by rw [hname]; rfl) h
  | _ => exact absurd trivial h

def Session.after (events : List Event) : Session := events.foldl Session.note {}

theorem foldlM_block_ok {blocks : List Json} (h : ∀ block ∈ blocks, NameHashable block)
    (session : Session) : blocks.foldlM Session.block session =
      .ok ((blocks.filterMap blockEvent).foldl Session.note session) := by
  induction blocks generalizing session with
  | nil => rfl
  | cons block blocks ih =>
    have hrest := ih fun other hother => h other (mem_cons_of_mem _ hother)
    rw [foldlM_cons, session.block_ok (h block mem_cons_self)]
    cases hevent : blockEvent block with
    | none => rw [filterMap_cons_none hevent]; exact hrest _
    | some event => rw [filterMap_cons_some hevent, foldl_cons]; exact hrest _

theorem foldlM_block_error {blocks : List Json} (h : ∃ block ∈ blocks, ¬ NameHashable block)
    (session : Session) : blocks.foldlM Session.block session = .error .unhashable := by
  induction blocks generalizing session with
  | nil => obtain ⟨_, hmem, _⟩ := h; cases hmem
  | cons block blocks ih =>
    rw [foldlM_cons]
    by_cases hblock : NameHashable block
    · rw [session.block_ok hblock]
      refine ih ?_ _
      obtain ⟨other, hother, hname⟩ := h
      rcases mem_cons.mp hother with rfl | hother
      · exact absurd hblock hname
      · exact ⟨other, hother, hname⟩
    · rw [session.block_error hblock]
      rfl

/-! ### What the session read returns -/

variable {events : List Event}

theorem mem_deniedIds_after {id : Text} :
    id ∈ (Session.after events).deniedIds ↔ .denial id ∈ events := by
  induction events using List.reverseRecOn with
  | nil => simp [Session.after]
  | append_singleton events event ih =>
    rw [Session.after, foldl_append, foldl_cons, foldl_nil, mem_append,
      mem_singleton, ← ih]
    cases event with
    | bash _ command => simp [Session.note, Session.request, Session.after]
    | edit _ => simp [Session.note, Session.edit, Session.after]
    | denial other => simp [Session.note, Session.deny, Session.after, or_comm]

theorem allows_after (events : List Event) (id : Option Text) :
    (Session.after events).allows id = !decide (Denied events id) := by
  cases id with
  | none => simp [Session.allows, Denied]
  | some text => simp [Session.allows, Denied, mem_deniedIds_after]

/-- `last_edit_position`, where the denied calls are those of `events`. -/
def Session.lastEdit (session : Session) (events : List Event) : ℕ :=
  ((session.editPositions.filter fun entry => !decide (Denied events entry.1)).map (·.2)).foldr max 0

def Session.kept (session : Session) (events : List Event) : List Text :=
  (session.requested.filter fun call => !decide (Denied events call.1) &&
    decide (session.lastEdit events < call.2.2)).map (·.2.1)

theorem commands_after (events : List Event) :
    (Session.after events).commands = (Session.after events).kept events := by
  have hlast : (Session.after events).lastEditPosition = (Session.after events).lastEdit events := by
    simp only [Session.lastEditPosition, Session.lastEdit, allows_after]
  simp only [Session.commands, Session.kept, hlast, allows_after]

theorem foldr_max_le {numbers : List ℕ} {bound : ℕ} (h : ∀ n ∈ numbers, n ≤ bound) :
    numbers.foldr max 0 ≤ bound := by
  induction numbers with
  | nil => exact Nat.zero_le _
  | cons n numbers ih =>
    exact max_le (h n mem_cons_self) (ih fun m hm => h m (mem_cons_of_mem _ hm))

theorem sinceLastEdit_append (part : List Event) {event : Event}
    (h : isExecutedEdit events event = false) :
    sinceLastEdit events (part ++ [event]) = sinceLastEdit events part ++ [event] := by
  rw [sinceLastEdit, reverse_append, reverse_singleton, singleton_append,
    takeWhile_cons_of_pos (by simp [h]), reverse_cons, sinceLastEdit]

theorem sinceLastEdit_executed (part : List Event) {event : Event}
    (h : isExecutedEdit events event = true) : sinceLastEdit events (part ++ [event]) = [] := by
  rw [sinceLastEdit, reverse_append, reverse_singleton, singleton_append,
    takeWhile_cons_of_neg (by simp [h]), reverse_nil]

/-- The variables after a part of the events. -/
structure ReadBack (events part : List Event) (session : Session) : Prop where
  /-- A call is numbered no later than the last one. -/
  requested : ∀ call ∈ session.requested, call.2.2 ≤ session.position
  edited : ∀ entry ∈ session.editPositions, entry.2 ≤ session.position
  kept : session.kept events = (sinceLastEdit events part).filterMap (executedCommand events)

variable {part : List Event} {session : Session}

theorem ReadBack.lastEdit_le
    (h : ReadBack events part session) : session.lastEdit events ≤ session.position := by
  refine foldr_max_le fun n hn => ?_
  obtain ⟨entry, hentry, rfl⟩ := mem_map.mp hn
  exact h.edited entry (mem_filter.mp hentry).1

theorem ReadBack.request (h : ReadBack events part session) (id : Option Text) (command : Text) :
    ReadBack events (part ++ [.bash id command]) (session.request id command) where
  requested := by
    intro call hcall
    rcases mem_append.mp hcall with hcall | hcall
    · exact (h.requested call hcall).trans (Nat.le_succ _)
    · rw [mem_singleton.mp hcall]
      exact le_rfl
  edited := fun entry hentry => (h.edited entry hentry).trans (Nat.le_succ _)
  kept := by
    have hlast : session.lastEdit events < session.position + 1 := Nat.lt_succ_of_le h.lastEdit_le
    have hadd : (session.request id command).kept events =
        session.kept events ++ (executedCommand events (.bash id command)).toList := by
      have hsame : (session.request id command).lastEdit events = session.lastEdit events := rfl
      rw [Session.kept, hsame, Session.request, filter_append, map_append, Session.kept]
      by_cases hdenied : Denied events id <;> simp [executedCommand, hdenied, hlast]
    rw [hadd, sinceLastEdit_append part rfl, filterMap_append, h.kept]
    cases hrun : executedCommand events (.bash id command) <;> simp [hrun]

theorem ReadBack.deny (h : ReadBack events part session) (id : Text) :
    ReadBack events (part ++ [.denial id]) (session.deny id) where
  requested := h.requested
  edited := h.edited
  kept := by
    rw [sinceLastEdit_append part rfl, filterMap_append, ← h.kept]
    exact (append_nil _).symm

theorem ReadBack.edit (h : ReadBack events part session) (id : Option Text) :
    ReadBack events (part ++ [.edit id]) (session.edit id) where
  requested := fun call hcall => (h.requested call hcall).trans (Nat.le_succ _)
  edited := by
    intro entry hentry
    rcases mem_cons.mp hentry with rfl | hentry
    · exact le_rfl
    · exact (h.edited entry (mem_filter.mp hentry).1).trans (Nat.le_succ _)
  kept := by
    by_cases hdenied : Denied events id
    · -- a denied edit leaves the cutoff where it is
      have hsame : (session.edit id).lastEdit events = session.lastEdit events := by
        rw [Session.lastEdit, Session.edit, filter_cons_of_neg (by simp [hdenied]),
          filter_filter, Session.lastEdit]
        congr 3
        funext entry
        by_cases hid : entry.1 = id <;> simp [hid, hdenied]
      rw [sinceLastEdit_append part (by simp [isExecutedEdit, hdenied]), filterMap_append,
        ← h.kept, Session.kept, hsame]
      exact (append_nil _).symm
    · have hlast : session.position + 1 ≤ (session.edit id).lastEdit events := by
        rw [Session.lastEdit, Session.edit, filter_cons_of_pos (by simp [hdenied])]
        exact le_max_left _ _
      rw [sinceLastEdit_executed part (by simp [isExecutedEdit, hdenied]), filterMap_nil,
        Session.kept, map_eq_nil_iff, filter_eq_nil_iff]
      intro call hcall
      have := h.requested call hcall
      simp only [Bool.and_eq_true, decide_eq_true_eq, not_and, not_lt]
      intro _
      omega

theorem readBack_after (events part : List Event) : ReadBack events part (Session.after part) := by
  induction part using List.reverseRecOn with
  | nil => exact ⟨forall_mem_nil _, forall_mem_nil _, rfl⟩
  | append_singleton part event ih =>
    rw [Session.after, foldl_append]
    cases event with
    | bash id command => exact ih.request id command
    | edit id => exact ih.edit id
    | denial id => exact ih.deny id

/-! ### The evidence of a session -/

section
variable {loads : Text → Option Json}

variable {lines : List LineBytes}

theorem collected_ok
    (h : ∀ block ∈ blocksOf loads (lines.flatMap LineBytes.pieces), NameHashable block) :
    hookCollectTranscriptCommands loads (some (transcript lines)) =
      .ok (some (Session.after (eventsOf loads (lines.flatMap LineBytes.pieces))).commands) := by
  rw [hookCollectTranscriptCommands, splitLines_transcript]
  simp only [← blocksOf.eq_def]
  rw [foldlM_block_ok h]
  rfl

theorem collected_error
    (h : ∃ block ∈ blocksOf loads (lines.flatMap LineBytes.pieces), ¬ NameHashable block) :
    hookCollectTranscriptCommands loads (some (transcript lines)) = .error .unhashable := by
  rw [hookCollectTranscriptCommands, splitLines_transcript]
  simp only [← blocksOf.eq_def]
  rw [foldlM_block_error h]
  rfl

theorem eventsOf_append (texts more : List Text) :
    eventsOf loads (texts ++ more) = eventsOf loads texts ++ eventsOf loads more := by
  simp [eventsOf, blocksOf, readRecords]

theorem eventsOf_pieces (h : ∀ line ∈ lines, Whole loads line) :
    eventsOf loads (lines.flatMap LineBytes.pieces) = eventsOf loads (lines.map LineBytes.text) := by
  induction lines with
  | nil => rfl
  | cons line lines ih =>
    have hline : eventsOf loads line.pieces = eventsOf loads [line.text] :=
      h line mem_cons_self
    rw [flatMap_cons, eventsOf_append, hline,
      ih fun other hother => h other (mem_cons_of_mem _ hother), ← eventsOf_append]
    rfl

theorem commandMatches_one {phrases : List (List Text)} {command : Text}
    (h : commandMatches phrases command = true) :
    ∃ phrase ∈ phrases, commandMatches [phrase] command = true := by
  obtain ⟨segment, hsegment, h⟩ := any_eq_true.mp h
  obtain ⟨phrase, hphrase, hcontains⟩ := any_eq_true.mp h
  refine ⟨phrase, hphrase, any_eq_true.mpr ⟨segment, hsegment, ?_⟩⟩
  rw [any_cons, hcontains, Bool.true_or]

theorem evaluateCommandIfChanged_pass {gate : CommandIfChangedGate} {paths : PathEvidence}
    {commands : CommandEvidence} {result : GateResult}
    (h : evaluateCommandIfChanged gate (some paths) (some commands) = .ok result)
    (hpass : result.outcome = .pass) :
    ∃ command ∈ commands.commands, ∃ phrase ∈ gate.require, ∃ tokens,
      tokenizePhrase phrase = .ok tokens ∧ commandMatches [tokens] command = true := by
  simp only [evaluateCommandIfChanged] at h
  split at h
  · rw [← Except.ok.inj h] at hpass
    cases hpass
  split at h
  · rw [← Except.ok.inj h] at hpass
    cases hpass
  split at h
  · rw [← Except.ok.inj h] at hpass
    cases hpass
  obtain ⟨phrases, hphrases, h⟩ := bind_eq_ok.mp h
  by_cases hmatch : commands.commands.any (commandMatches phrases) = true
  · obtain ⟨command, hcommand, hmatch⟩ := any_eq_true.mp hmatch
    obtain ⟨tokens, htokens, hone⟩ := commandMatches_one hmatch
    obtain ⟨phrase, hphrase, htokenize⟩ := exists_of_mem_mapM hphrases htokens
    exact ⟨command, hcommand, phrase, hphrase, tokens, htokenize, hone⟩
  · rw [if_neg hmatch] at h
    rw [← Except.ok.inj h] at hpass
    cases hpass

/-- **The commands are exact where each line is read whole, if and only if each tool's name is one
that can be looked up.** -/
theorem sessionExact_iff {lines : List LineBytes} (h : ∀ line ∈ lines, Whole loads line) :
    SessionExact loads lines ↔
      ∀ block ∈ blocksOf loads (lines.flatMap LineBytes.pieces), NameHashable block := by
  constructor
  · intro hexact
    by_contra hname
    push Not at hname
    have hreturned := hexact.returned
    rw [collected_error hname] at hreturned
    cases hreturned
  · intro hname
    have hcommands : hookCollectTranscriptCommands loads (some (transcript lines)) =
        .ok (some (sessionCommands loads lines)) := by
      rw [collected_ok hname, eventsOf_pieces h, commands_after, (readBack_after _ _).kept]
      rfl
    refine ⟨hcommands, fun gate paths commands result hcollected hevaluated hpass => ?_⟩
    rw [hcommands, Except.ok.injEq, Option.some.injEq] at hcollected
    subst hcollected
    exact evaluateCommandIfChanged_pass hevaluated hpass

end

/-! ### A transcript that is split -/

/-- `make lint` run by the shell, as its line. -/
def lintRun : String :=
  "\x7b\"message\":\x7b\"content\":[\x7b\"type\":\"tool_use\",\"name\":\"Bash\",\"input\":\x7b\"command\":\"make lint\"\x7d\x7d]\x7d\x7d"

/-- An edit that writes a line separator, as its line. -/
def separatorWritten : String :=
  "\x7b\"message\":\x7b\"content\":[\x7b\"type\":\"tool_use\",\"name\":\"Edit\",\"input\":\x7b\"new_string\":\"\u2028\"\x7d\x7d]\x7d\x7d"

def callRecord (name field value : String) : Json :=
  .obj [("message", .obj [("content", .arr [.obj [("type", .str "tool_use"), ("name", .str name),
    ("input", .obj [(field, .str value)])]])])]

/-- `json.loads`, of the two lines and of what they are broken in. -/
def twoLines (text : Text) : Option Json :=
  if text = lintRun.toList then some (callRecord "Bash" "command" "make lint")
  else if text = separatorWritten.toList then some (callRecord "Edit" "new_string" "\u2028")
  else none

def lintLine : LineBytes := ⟨lintRun.toUTF8.data.toList, by decide +kernel⟩

def separatorLine : LineBytes := ⟨separatorWritten.toUTF8.data.toList, by decide +kernel⟩

theorem sessionExact_iff_lint : SessionExact twoLines [lintLine] := by
  refine (sessionExact_iff ?_).mpr (by decide +kernel)
  intro line hline
  rw [List.mem_singleton.mp hline]
  exact whole_of_unbroken (by decide +kernel)

/-- The edit is lost, and `make lint` counted as run since. -/
theorem separatorWritten_not_sessionExact : ¬ SessionExact twoLines [lintLine, separatorLine] := by
  intro h
  have hexpected : sessionCommands twoLines [lintLine, separatorLine] = [] := by decide +kernel
  have hcollected : hookCollectTranscriptCommands twoLines
      (some (transcript [lintLine, separatorLine])) = .ok (some ["make lint".toList]) := by
    decide +kernel
  have hreturned := h.returned
  rw [hexpected, hcollected] at hreturned
  cases hreturned

end Otari.Policy

import Otari.Access.AllowLists
import Otari.Policy.Gates
import Otari.Support.Distinct
import Otari.Support.Shlex

/-!
# Policy — ShellWords — commands and phrases as tokens

`domain/evaluators.py`: what Bash does not read as command words is removed
(`stripCommentsAndHeredocBodies`), every unquoted separator is set apart (`normalizeSeparators`), and
what is left is split into the segments of its simple commands (`commandSegments`).  A phrase is
tokenized without its separators set apart (`tokenizePhrase`), and stands in a segment as an unbroken
run of tokens, its first by basename at the segment's head (`containsSubsequence`).
-/

namespace Otari.Policy
open List
open Access (isSpace)
open Shlex (LexError)

/-! ### Separators -/

/-- `COMMAND_SEPARATORS`. -/
def commandSeparators : List Text :=
  [['&', '&'], ['|', '|'], [';'], ['|'], ['&'], ['('], [')']]

/-- `_METACHARACTERS`. -/
def metacharacters : Text := ['|', '&', ';', '(', ')', '<', '>']

/-- `_PADDED_OPERATORS`, longest first. -/
def paddedOperators : List Text := commandSeparators

/-- `_basename`. -/
def basename (token : Text) : Text :=
  let last := (token.splitOn '/').getLast (List.splitOn_ne_nil _ _)
  if last.isEmpty then token else last

/-! ### Comments and here-documents -/

/-- `_Heredoc`. -/
structure Heredoc where
  delimiter : Text
  stripsTabs : Bool
  joinsLines : Bool
deriving DecidableEq

/-- `_NO_REDIRECTION_OPENERS`. -/
def noRedirectionOpeners : List (Text × Text) :=
  [(['$', '(', '('], [')', ')']), (['(', '('], [')', ')']), (['$', '['], [']']),
    (['$', '{'], ['}']), (['=', '('], [')'])]

/-- `_PAIR_CHARACTERS`. -/
def pairCharacters : Text := ['$', '(', '=', '[', ')', ']', '}']

/-- `_NoRedirectionPairs.advance`: the pairs open after it, and the characters it took. -/
def advance (closers : List Text) (text : Text) (atWordStart : Bool) : List Text × ℕ :=
  match closers.head?.filter (·.isPrefixOf text) with
  | some closer => (closers.tail, closer.length)
  | none =>
    match noRedirectionOpeners.find? (·.1.isPrefixOf text) with
    | some (opener, closer) => (closer :: closers, opener.length)
    | none =>
      if text.head? = some '[' ∧ !atWordStart then ([']'] :: closers, 1)
      else if text.head? = some '(' ∧ closers ≠ [] then ([')'] :: closers, 1)
      else (closers, 0)

/-- `_ESCAPED_IN_DOUBLE_QUOTES`. -/
def escapedInDoubleQuotes : Text := ['$', '`', '"', '\\', '\n']

/-- A heredoc's delimiter word as far as it is read. -/
structure Delimiter where
  text : Text := []
  quote : Option Char := none
  quoted : Bool := false
  taken : ℕ := 0

def Delimiter.push (d : Delimiter) (c : Char) (taken : ℕ) : Delimiter :=
  { d with text := d.text ++ [c], taken := d.taken + taken }

/-- The loop of `_read_heredoc_operator`: none where the word uses `$` or a backtick. -/
def readDelimiter (d : Delimiter) : Text → Option Delimiter
  | [] => some d
  | c :: rest =>
    if d.quote = some '\'' then
      if c = '\'' then readDelimiter { d with quote := none, taken := d.taken + 1 } rest
      else readDelimiter (d.push c 1) rest
    else if c = '$' ∨ c = '`' then none
    else if d.quote = some '"' then
      if c = '"' then readDelimiter { d with quote := none, taken := d.taken + 1 } rest
      else
        match c, _h : rest with
        | '\\', next :: rest' =>
          if next ∈ escapedInDoubleQuotes then readDelimiter (d.push next 2) rest'
          else readDelimiter (d.push c 1) rest
        | _, _ => readDelimiter (d.push c 1) rest
    else if c = '\'' ∨ c = '"' then
      readDelimiter { d with quote := some c, quoted := true, taken := d.taken + 1 } rest
    else
      match c, _h : rest with
      | '\\', next :: rest' => readDelimiter { d.push next 2 with quoted := true } rest'
      | _, _ =>
        if isSpace c || c ∈ metacharacters then some d else readDelimiter (d.push c 1) rest
termination_by text => text.length

/-- `_read_heredoc_operator`, of the text after `<<`: the heredoc, and the characters of its word. -/
def readHeredocOperator (text : Text) : Option (Heredoc × ℕ) :=
  let stripsTabs := text.head? = some '-'
  let afterDash := if stripsTabs then text.tail else text
  let blanks := (afterDash.takeWhile fun c => c = ' ' ∨ c = '\t').length
  (readDelimiter {} (afterDash.drop blanks)).bind fun d =>
    if d.quote.isSome ∨ d.taken = 0 then none
    else some (⟨d.text, stripsTabs, !d.quoted⟩, (if stripsTabs then 1 else 0) + blanks + d.taken)

def Heredoc.endsAt (heredoc : Heredoc) (line : Text) : Bool :=
  (if heredoc.stripsTabs then line.dropWhile (· = '\t') else line) = heredoc.delimiter

/-- `_HeredocTerminators._body_end`, of the lines from a body's first: the lines after it. -/
def bodyEnd (heredoc : Heredoc) (lines : List Text) : Option (List Text) :=
  match lines.dropWhile (!heredoc.endsAt ·) with
  | [] => none
  | terminator :: after =>
    if heredoc.joinsLines ∧
        (lines.takeWhile (!heredoc.endsAt ·)).any fun line => line.getLast? = some '\\' then none
    -- an empty last line begins at the text's end, and is found there again
    else if after = [] ∧ terminator = [] then some [terminator]
    else some after

/-- `_HeredocTerminators.bodies_end`: it stops at a body with no certain end. -/
def bodiesEnd : List Heredoc → List Text → List Text
  | [], lines => lines
  | heredoc :: heredocs, lines =>
    match bodyEnd heredoc lines with
    | none => lines
    | some after => bodiesEnd heredocs after

def textFrom (lines : List Text) : Text := ['\n'].intercalate lines

/-- The rest of `$'...'`: what it is rewritten into, and the text after it. -/
def readAnsi : Text → Text × Text
  | [] => ([], [])
  | '\\' :: c :: rest =>
    ((if c = '\'' then ['\'', '\\', '\'', '\''] else [c]) ++ (readAnsi rest).1, (readAnsi rest).2)
  | '\'' :: rest => (['\''], rest)
  | c :: rest => (c :: (readAnsi rest).1, (readAnsi rest).2)

/-- The variables of `_strip_comments_and_heredoc_bodies`. -/
structure Stripper where
  quote : Option Char := none
  atWordStart : Bool := true
  escaped : Bool := false
  pendingHeredocs : List Heredoc := []
  pairs : List Text := []

/-- What one turn of the loop appends to the result, the variables and the text it leaves. -/
structure Turn where
  result : Text
  next : Stripper
  rest : Text

/-- A turn that keeps the character and takes no other. -/
def Stripper.keep (s : Stripper) (c : Char) (rest : Text) : Turn := ⟨[c], s, rest⟩

def Stripper.pairTurn (s : Stripper) (text : Text) : Turn :=
  let (pairs, taken) := advance s.pairs text s.atWordStart
  ⟨text.take taken, { s with pairs, atWordStart := (text.take taken).getLast? = some '(' },
    text.drop taken⟩

/-- A turn at `<<`, of the text after it. -/
def Stripper.redirectTurn (s : Stripper) (rest : Text) : Turn :=
  let isHereString : Bool := rest.head? = some '<'
  let opened := if isHereString || s.pairs ≠ [] then none else readHeredocOperator rest
  match opened with
  | none =>
    let third := if isHereString then 1 else 0
    ⟨['<', '<'] ++ rest.take third, { s with atWordStart := true }, rest.drop third⟩
  | some (heredoc, taken) =>
    ⟨['<', '<'] ++ rest.take taken,
      { s with pendingHeredocs := s.pendingHeredocs ++ [heredoc], atWordStart := false },
      rest.drop taken⟩

/-- A turn outside quotes, at a character that begins none and escapes nothing. -/
def Stripper.bareTurn (s : Stripper) (c : Char) (rest : Text) : Turn :=
  if c = '#' ∧ s.atWordStart then ⟨[], s, rest.dropWhile (· ≠ '\n')⟩
  else if c = '\n' then
    ⟨[c], { s with pendingHeredocs := [], atWordStart := true },
      textFrom (bodiesEnd s.pendingHeredocs (rest.splitOn '\n'))⟩
  else if c ∈ pairCharacters ∧ (advance s.pairs (c :: rest) s.atWordStart).2 ≠ 0 then
    s.pairTurn (c :: rest)
  else if c = '<' ∧ rest.head? = some '<' then s.redirectTurn rest.tail
  else { s with atWordStart := isSpace c || c ∈ metacharacters }.keep c rest

/-- A turn of `_strip_comments_and_heredoc_bodies`, in the order of its branches. -/
def Stripper.turn (s : Stripper) (c : Char) (rest : Text) : Turn :=
  if s.escaped then { s with escaped := false }.keep c rest
  else if s.quote = some '\'' then
    { s with quote := if c = '\'' then none else s.quote }.keep c rest
  else if s.quote = none ∧ c = '$' ∧ rest.head? = some '\'' then
    ⟨'\'' :: (readAnsi rest.tail).1, { s with atWordStart := false }, (readAnsi rest.tail).2⟩
  else if c = '\\' then { s with escaped := true, atWordStart := false }.keep c rest
  else if s.quote = some '"' then
    { s with quote := if c = '"' then none else s.quote }.keep c rest
  else if c = '\'' ∨ c = '"' then { s with quote := some c, atWordStart := false }.keep c rest
  else s.bareTurn c rest

theorem length_readAnsi (text : Text) : (readAnsi text).2.length ≤ text.length := by
  fun_induction readAnsi text with
  | case1 => exact le_rfl
  | case2 c rest ih => exact ih.trans (by simp only [length_cons]; omega)
  | case3 rest => exact Nat.le_succ _
  | case4 c rest _ _ ih => exact ih.trans (Nat.le_succ _)

theorem length_textFrom_cons (line : Text) (lines : List Text) :
    (textFrom lines).length ≤ (textFrom (line :: lines)).length := by
  cases lines with
  | nil => exact Nat.zero_le _
  | cons next lines =>
    simp [textFrom, List.intercalate]
    omega

theorem length_textFrom_append (lines after : List Text) :
    (textFrom after).length ≤ (textFrom (lines ++ after)).length := by
  induction lines with
  | nil => exact le_rfl
  | cons line lines ih => exact ih.trans (length_textFrom_cons line _)

theorem length_bodyEnd {heredoc : Heredoc} {lines after : List Text}
    (h : bodyEnd heredoc lines = some after) : (textFrom after).length ≤ (textFrom lines).length := by
  have hlines := @takeWhile_append_dropWhile _ (!heredoc.endsAt ·) lines
  unfold bodyEnd at h
  split at h
  · cases h
  · rename_i terminator rest hdrop
    rw [hdrop] at hlines
    split at h
    · cases h
    split at h
    · rename_i hempty
      obtain rfl := Option.some.inj h
      rw [hempty.2]
      exact Nat.zero_le _
    · obtain rfl := Option.some.inj h
      rw [← hlines]
      exact (length_textFrom_cons terminator rest).trans (length_textFrom_append _ _)

theorem length_bodiesEnd (heredocs : List Heredoc) (lines : List Text) :
    (textFrom (bodiesEnd heredocs lines)).length ≤ (textFrom lines).length := by
  induction heredocs generalizing lines with
  | nil => exact le_rfl
  | cons heredoc heredocs ih =>
    rw [bodiesEnd]
    split
    · exact le_rfl
    · rename_i after h
      exact (ih after).trans (length_bodyEnd h)

theorem Stripper.length_redirectTurn (s : Stripper) (rest : Text) :
    (s.redirectTurn rest).rest.length ≤ rest.length := by
  unfold redirectTurn
  simp only
  split
  · exact (drop_sublist _ _).length_le
  · exact (drop_sublist _ _).length_le

theorem Stripper.length_bareTurn (s : Stripper) (c : Char) (rest : Text) :
    (s.bareTurn c rest).rest.length ≤ rest.length := by
  unfold bareTurn
  split
  · exact (dropWhile_sublist _).length_le
  split
  · refine (length_bodiesEnd _ _).trans ?_
    rw [textFrom, intercalate_splitOn]
  split
  · rename_i hpair
    simp only [pairTurn, length_drop, length_cons]
    omega
  split
  · exact (s.length_redirectTurn _).trans ((tail_sublist _).length_le)
  · exact le_rfl

theorem Stripper.length_turn (s : Stripper) (c : Char) (rest : Text) :
    (s.turn c rest).rest.length ≤ rest.length := by
  unfold turn
  split
  · exact le_rfl
  split
  · exact le_rfl
  split
  · exact (length_readAnsi _).trans ((tail_sublist _).length_le)
  split
  · exact le_rfl
  split
  · exact le_rfl
  split
  · exact le_rfl
  · exact s.length_bareTurn c rest

/-- The loop of `_strip_comments_and_heredoc_bodies`. -/
def Stripper.strip (s : Stripper) : Text → Text
  | [] => []
  | c :: rest => (s.turn c rest).result ++ (s.turn c rest).next.strip (s.turn c rest).rest
termination_by text => text.length
decreasing_by exact Nat.lt_succ_of_le (s.length_turn c rest)

/-- `_strip_comments_and_heredoc_bodies`. -/
def stripCommentsAndHeredocBodies (command : Text) : Text := Stripper.strip {} command

/-! ### Separators set apart -/

/-- `_operator_at`, between the characters before and from an index. -/
def operatorAt (before : Option Char) (text : Text) : Option Text :=
  if text.head? = some '&' ∧ (before = some '<' ∨ before = some '>' ∨ text[1]? = some '>') then none
  else paddedOperators.find? (·.isPrefixOf text)

/-- `f" {operator} "`. -/
def setApart (operator : Text) : Text := ' ' :: operator ++ [' ']

/-- The loop of `_normalize_separators`, from the quote it is in and the character before. -/
def normalizeFrom (quote before : Option Char) : Text → Text
  | [] => []
  | c :: rest =>
    if quote = some '\'' then c :: normalizeFrom (if c = '\'' then none else quote) (some c) rest
    else if c = '\\' then
      match rest.head? with
      | none => [c]
      | some next =>
        if next = '\n' then normalizeFrom quote (some next) rest.tail
        else c :: next :: normalizeFrom quote (some next) rest.tail
    else if quote = some '"' then
      c :: normalizeFrom (if c = '"' then none else quote) (some c) rest
    else if c = '\'' ∨ c = '"' then c :: normalizeFrom (some c) (some c) rest
    else if c = '\n' then setApart [';'] ++ normalizeFrom none (some c) rest
    else
      match operatorAt before (c :: rest) with
      | some operator =>
        setApart operator ++
          normalizeFrom none operator.getLast? (rest.drop (operator.length - 1))
      | none => c :: normalizeFrom none (some c) rest
termination_by text => text.length
decreasing_by all_goals simp only [List.length_cons, List.length_tail, List.length_drop]; omega

/-- `_SEPARATOR_SCAN`. -/
def separatorScan : Text := ['\n', '|', '&', ';', '(', ')']

/-- `_normalize_separators`. -/
def normalizeSeparators (command : Text) : Text :=
  if command.any (· ∈ separatorScan) then normalizeFrom none none command else command

/-! ### Segments -/

/-- `str.split`, at white space. -/
def splitBlank (text : Text) : List Text := (text.splitOnP isSpace).filter (!·.isEmpty)

/-- `stripped.replace("\\\n", "").replace("\n", " ; ")`. -/
def blindNewlines : Text → Text
  | [] => []
  | '\\' :: '\n' :: rest => blindNewlines rest
  | '\n' :: rest => setApart [';'] ++ blindNewlines rest
  | c :: rest => c :: blindNewlines rest

/-- The operator `_BLIND_SEPARATOR_PAD` matches, between the characters before and from an index. -/
def blindOperatorAt (before : Option Char) (text : Text) : Option Text :=
  match paddedOperators.find? (·.isPrefixOf text) with
  | some ['&'] =>
    if before = some '<' ∨ before = some '>' ∨ text[1]? = some '>' then none else some ['&']
  | operator => operator

/-- `_BLIND_SEPARATOR_PAD.sub`. -/
def blindPad (before : Option Char) : Text → Text
  | [] => []
  | c :: rest =>
    match blindOperatorAt before (c :: rest) with
    | some operator =>
      setApart operator ++ blindPad operator.getLast? (rest.drop (operator.length - 1))
    | none => c :: blindPad (some c) rest
termination_by text => text.length

/-- The tokens of a command: a split at white space where it cannot be tokenized. -/
def commandTokens (command : Text) : List Text :=
  let stripped := stripCommentsAndHeredocBodies command
  match Shlex.split (normalizeSeparators stripped) with
  | .ok tokens => tokens
  | .error _ => splitBlank (blindPad none (blindNewlines stripped))

/-- `_command_segments`. -/
def commandSegments (command : Text) : List (List Text) :=
  ((commandTokens command).splitOnP (· ∈ commandSeparators)).filter (!·.isEmpty)

/-! ### Phrases -/

/-- `tokenize_phrase`. -/
def tokenizePhrase (phrase : Text) : Except LexError (List Text) :=
  Shlex.split (stripCommentsAndHeredocBodies phrase)

/-- `tokenize_phrase_with_separators`. -/
def tokenizePhraseWithSeparators (phrase : Text) : Except LexError (List Text) :=
  Shlex.split (normalizeSeparators (stripCommentsAndHeredocBodies phrase))

/-- The window of a segment at `start` is the phrase, by basename at the segment's head. -/
def standsAt (segment phrase : List Text) (start : ℕ) : Bool :=
  let headMatches : Bool :=
    if start = 0 then segment.head?.map basename = phrase.head?.map basename
    else segment[start]? = phrase.head?
  headMatches && ((segment.drop (start + 1)).take (phrase.length - 1) = phrase.tail)

/-- `_contains_subsequence`. -/
def containsSubsequence (segment phrase : List Text) : Bool :=
  if phrase.isEmpty ∨ segment.length < phrase.length then false
  else (List.range (segment.length - phrase.length + 1)).any (standsAt segment phrase)

def commandMatches (phrases : List (List Text)) (command : Text) : Bool :=
  (commandSegments command).any fun segment => phrases.any (containsSubsequence segment)

/-! ### The command gate -/

/-- `CommandGate.failure_message`. -/
def CommandGate.failureMessage (gate : CommandGate) : Text :=
  gate.toGate.failureMessage "A command this gate forbids was run."

/-- `evaluate_command`. -/
def evaluateCommand (gate : CommandGate) : Option CommandEvidence → Except LexError GateResult
  | none => .ok (gate.result .unknown "Command evidence was not submitted.".toList)
  | some evidence =>
    if evidence.scope = .session then
      .ok (gate.result .notApplicable
        "Forbidden commands are checked per call, not over session history.".toList)
    else if evidence.commands.isEmpty then
      .ok (gate.result .notApplicable "No commands were submitted to check.".toList)
    else do
      let phrases ← gate.forbidden.mapM tokenizePhrase
      let matched := sortedTexts (evidence.commands.filter (commandMatches phrases))
      if matched.isEmpty then return gate.result .pass "No forbidden commands run.".toList
      return gate.result .fail gate.failureMessage (some (joinComma matched))

/-- `CommandIfChangedGate.failure_message`. -/
def CommandIfChangedGate.failureMessage (gate : CommandIfChangedGate) : Text :=
  gate.toGate.failureMessage "A watched path changed without this gate's required command."

/-- `evaluate_command_if_changed`. -/
def evaluateCommandIfChanged (gate : CommandIfChangedGate) :
    Option PathEvidence → Option CommandEvidence → Except LexError GateResult
  | some paths, some commands =>
    let matchedPaths := matchedChangedPaths gate.whenChanged paths.paths
    if matchedPaths.isEmpty then
      .ok (gate.result .notApplicable
        "No changed path matched this gate's when_changed globs.".toList)
    else if commands.scope = .call then
      .ok (gate.result .notApplicable
        "Required-command checks resolve against session history, not one call.".toList)
    else if commands.commands.isEmpty then
      .ok (gate.result .fail gate.failureMessage (some (joinComma matchedPaths)))
    else do
      let phrases ← gate.require.mapM tokenizePhrase
      if commands.commands.any (commandMatches phrases) then
        return gate.result .pass "A required command ran.".toList
      return gate.result .fail gate.failureMessage (some (joinComma matchedPaths))
  | _, _ => .ok (gate.result .unknown "Change or command evidence was not submitted.".toList)

end Otari.Policy

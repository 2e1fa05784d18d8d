import Otari.Policy.Validation

/-!
# Policy — PhraseDiagnostics — what is said of a phrase

A phrase is read twice (`pieces`): as it is matched, its separators glued to their words and a line
continuation kept in one, and as a command is, separators apart and continuations deleted
(`split_pieces`).  The diagnostic looks for a separator in the second reading, and a command may hold
whatever tokens but separators (`exists_command_iff`).

So **what is said of a phrase is true exactly when a word after its first is a separator by itself,
or it has none at all and no continuation tells in its words** (`truthful_iff`).
-/

namespace Otari.Policy
open List hiding isEmpty_iff
open Shlex (LexError Lexer isBlank)

/-! ### The phrases a policy may hold -/

/-- A `PolicyError` of `_parse_phrase_list`. -/
inductive PhraseError where
  | notAPhrase (gateId field phrase : Text) (reason : LexError)
  | noTokens (gateId field phrase : Text)
deriving DecidableEq

/-- The error's text, over Python's `repr` of a string. -/
def PhraseError.message (repr : Text → Text) : PhraseError → Text
  | .notAPhrase gateId field phrase reason =>
    concat ["Gate ".toList, repr gateId, ": ".toList, field, " phrase ".toList, repr phrase,
      " is not a valid shell phrase: ".toList, reason.message]
  | .noTokens gateId field phrase =>
    concat ["Gate ".toList, repr gateId, ": ".toList, field, " phrase ".toList, repr phrase,
      " has no tokens to match.".toList]

/-- A turn of the loop of `_parse_phrase_list`. -/
def checkPhrase (gateId field phrase : Text) : Except PhraseError Unit :=
  match tokenizePhrase phrase with
  | .error reason => .error (.notAPhrase gateId field phrase reason)
  | .ok tokens => if tokens.isEmpty then .error (.noTokens gateId field phrase) else .ok ()

/-- `_parse_phrase_list`. -/
def parsePhraseList (gateId field : Text) (phrases : List Text) :
    Except PhraseError (List Text) := do
  forM phrases (checkPhrase gateId field)
  return phrases

def forbids (phrase : Text) : CommandGate where
  id := "g".toList
  enforcement := .required
  runs := [.preToolUseCommand]
  forbidden := [phrase]

def Matches (phrase command : Text) : Prop :=
  ∃ result, evaluateCommand (forbids phrase) (some { commands := [command] }) = .ok result ∧
    result.outcome = .fail

/-- **What is said of a phrase is true.** -/
structure Truthful (repr : Text → Text) (field : PhraseField) (phrase : Text) : Prop where
  answers : ∃ answer, unmatchablePhrase repr phrase field = .ok answer
  reported : (∃ problem, unmatchablePhrase repr phrase field = .ok (some problem)) ↔
    ∀ command, ¬ Matches phrase command
  silent : unmatchablePhrase repr phrase field = .ok none → Matches phrase phrase

/-! ### A phrase in pieces -/

/-- What a shell reads text as. -/
inductive Piece where
  | char (c : Char)
  /-- A quote begun, and so a word. -/
  | mark
  /-- A line continuation. -/
  | join (quoted : Bool)
  | blank
  | newline
  | operator (text : Text)
deriving DecidableEq

def escapePieces (quote : Option Char) (next : Char) : List Piece :=
  if next = '\n' then [.join quote.isSome]
  else if quote.isSome ∧ next ≠ '\\' ∧ next ≠ '"' then [.char '\\', .char next]
  else [.char next]

/-- The pieces of text, from the quote it is in and the character before. -/
def pieces (quote before : Option Char) : Text → List Piece
  | [] => []
  | c :: rest =>
    if quote = some '\'' then
      if c = '\'' then pieces none (some c) rest else .char c :: pieces quote (some c) rest
    else if c = '\\' then
      match rest.head? with
      | none => []
      | some next => escapePieces quote next ++ pieces quote (some next) rest.tail
    else if quote = some '"' then
      if c = '"' then pieces none (some c) rest else .char c :: pieces quote (some c) rest
    else if c = '\'' ∨ c = '"' then .mark :: pieces (some c) (some c) rest
    else if c = '\n' then .newline :: pieces none (some c) rest
    else
      match operatorAt before (c :: rest) with
      | some operator =>
        .operator operator :: pieces none operator.getLast? (rest.drop (operator.length - 1))
      | none => (if isBlank c then .blank else .char c) :: pieces none (some c) rest
termination_by text => text.length
decreasing_by all_goals simp only [List.length_cons, List.length_tail, List.length_drop]; omega

/-- What a piece adds to a word, and where it breaks off: as a phrase is matched. -/
def Piece.glued : Piece → List (Option Text)
  | .char c => [some [c]]
  | .mark => [some []]
  | .join quoted => [some (if quoted then ['\\', '\n'] else ['\n'])]
  | .blank => [none]
  | .newline => [none]
  | .operator text => [some text]

def Piece.apart : Piece → List (Option Text)
  | .char c => [some [c]]
  | .mark => [some []]
  | .join _ => []
  | .blank => [none]
  | .newline => [none, some [';'], none]
  | .operator text => [none, some text, none]

def assemble (word : Option Text) : List (Option Text) → List Text
  | [] => word.toList
  | some text :: rest => assemble (some (word.getD [] ++ text)) rest
  | none :: rest => word.toList ++ assemble none rest

/-- The words of a phrase's pieces as it is matched. -/
def gluedWords (ps : List Piece) : List Text := assemble none (ps.flatMap Piece.glued)

/-- The words of a phrase's pieces as a command is read. -/
def apartWords (ps : List Piece) : List Text := assemble none (ps.flatMap Piece.apart)

/-- The pieces of a phrase, its comments and here-documents removed. -/
def phrasePieces (phrase : Text) : List Piece :=
  pieces none none (stripCommentsAndHeredocBodies phrase)

def Bare (ps : List Piece) : Prop := ∀ p ∈ ps, p ≠ .newline ∧ ∀ text, p ≠ .operator text

/-- No separator: none stands unquoted, none is spelled by a word, and the continuations deleted
tell in no word but the directory part of the first. -/
structure Plain (ps : List Piece) : Prop where
  bare : Bare ps
  spelled : ∀ word ∈ apartWords ps, word ∉ commandSeparators
  head : (apartWords ps).head?.map basename = (gluedWords ps).head?.map basename
  tail : (apartWords ps).tail = (gluedWords ps).tail

/-- A word after the first is a separator by itself. -/
def SeparatorAlone (ps : List Piece) : Prop :=
  ∃ word ∈ (gluedWords ps).tail, word ∈ commandSeparators

/-! ### The two readings -/

theorem paddedOperators_plain : ∀ operator ∈ paddedOperators,
    operator ≠ [] ∧ (∀ c ∈ operator, isBlank c = false ∧ c ≠ '\\' ∧ c ≠ '\'' ∧ c ≠ '"') ∧
      ∀ c ∈ operator, c ∈ separatorScan := by
  simp [paddedOperators, commandSeparators, isBlank, separatorScan]

variable {text : Text}

variable {before : Option Char}

variable {operator : Text}

theorem operatorAt_eq_some (h : operatorAt before text = some operator) :
    operator ∈ paddedOperators ∧ operator <+: text := by
  rw [operatorAt] at h
  split at h
  · cases h
  · have hfound := List.find?_some h
    exact ⟨mem_of_find?_eq_some h, List.isPrefixOf_iff_prefix.mp hfound⟩

variable {c : Char}

theorem eq_operator_append {rest : Text} (h : operatorAt before (c :: rest) = some operator) :
    c :: rest = operator ++ rest.drop (operator.length - 1) := by
  obtain ⟨hmem, hstands⟩ := operatorAt_eq_some h
  obtain ⟨after, hafter⟩ := hstands
  cases operator with
  | nil => exact absurd rfl (paddedOperators_plain [] hmem).1
  | cons a operator =>
    rw [cons_append] at hafter
    obtain ⟨rfl, rfl⟩ := List.cons.inj hafter
    rw [length_cons, Nat.add_sub_cancel, drop_left, cons_append]

theorem words_setApart (h : operator ∈ paddedOperators) (word : Option Text) (text : Text) :
    ({ word } : Lexer).words (setApart operator ++ text) =
      (({} : Lexer).words text).map fun words => word.toList ++ operator :: words := by
  obtain ⟨hne, hplain, -⟩ := paddedOperators_plain operator h
  have happend : setApart operator ++ text = ' ' :: (operator ++ ' ' :: text) := by simp [setApart]
  have hoperator : ({} : Lexer).words (operator ++ ' ' :: text) =
      (({} : Lexer).words text).map (operator :: ·) := by
    have := Lexer.words_plain_append (fun c hc => hplain c hc) hne none (' ' :: text)
    rw [this, Lexer.words_blank (by decide)]
    rfl
  rw [happend, Lexer.words_blank (by decide), hoperator]
  cases ({} : Lexer).words text <;> rfl

def IsQuote (quote : Option Char) : Prop := quote = none ∨ quote = some '\'' ∨ quote = some '"'

theorem words_quoted {q : Char} (hquote : c ≠ q) (hescape : ¬ (c = '\\' ∧ q = '"'))
    (word : Option Text) (text : Text) : ({ word, quote := some q } : Lexer).words (c :: text) =
      ({ word := some (word.getD [] ++ [c]), quote := some q } : Lexer).words text := by
  refine Lexer.words_cons _ ?_ text
  simp only [Lexer.step, Lexer.push, Bool.false_eq_true, if_false, if_neg hquote, if_neg hescape]

theorem words_unquote (q : Char) (word : Option Text) (text : Text) :
    ({ word, quote := some q } : Lexer).words (q :: text) = ({ word } : Lexer).words text :=
  Lexer.words_cons _ (by simp [Lexer.step]) text

theorem words_mark {q : Char} (hq : q = '\'' ∨ q = '"') (word : Option Text) (text : Text) :
    ({ word } : Lexer).words (q :: text) =
      ({ word := some (word.getD [] ++ []), quote := some q } : Lexer).words text := by
  refine Lexer.words_cons _ ?_ text
  rcases hq with rfl | rfl <;> rfl

variable {quote : Option Char}

theorem words_escape (hquote : quote = none ∨ quote = some '"') (next : Char)
    (word : Option Text) (text : Text) : ({ word, quote } : Lexer).words ('\\' :: next :: text) =
      ({ word := some (word.getD [] ++
          (if quote.isSome ∧ next ≠ '\\' ∧ next ≠ '"' then ['\\', next] else [next])), quote } :
        Lexer).words text := by
  rcases hquote with rfl | rfl
  · rw [Lexer.words_cons { word := some (word.getD [] ++ []), escaped := true } rfl]
    exact Lexer.words_cons _ (by simp [Lexer.step, Lexer.push]) text
  · rw [Lexer.words_cons { word, quote := some '"', escaped := true } rfl]
    refine Lexer.words_cons _ ?_ text
    by_cases h : next = '\\' <;> by_cases h' : next = '"' <;>
      simp [Lexer.step, Lexer.push, h, h', eq_comm]

theorem assemble_escape (quote : Option Char) (next : Char) (word : Option Text)
    (rest : List (Option Text)) :
    assemble word ((escapePieces quote next).flatMap Piece.glued ++ rest) =
      assemble (some (word.getD [] ++
        (if quote.isSome ∧ next ≠ '\\' ∧ next ≠ '"' then ['\\', next] else [next]))) rest := by
  rw [escapePieces]
  by_cases hnewline : next = '\n'
  · subst hnewline
    cases quote <;> simp [Piece.glued, assemble]
  · rw [if_neg hnewline]
    split <;> simp [Piece.glued, assemble]

theorem isQuote_cases (h : IsQuote quote) (hsingle : quote ≠ some '\'') :
    quote = none ∨ quote = some '"' := by
  rcases h with h | h | h
  · exact .inl h
  · exact absurd h hsingle
  · exact .inr h

theorem isQuote_none (h : IsQuote quote) (hsingle : quote ≠ some '\'')
    (hdouble : quote ≠ some '"') : quote = none :=
  (isQuote_cases h hsingle).resolve_right hdouble

/-- What a phrase's text and its normalized text are read as. -/
def ReadAs (quote before : Option Char) (text : Text) : Prop :=
  ∀ word tokens, ({ word, quote } : Lexer).words text = .ok tokens →
    tokens = assemble word ((pieces quote before text).flatMap Piece.glued) ∧
      ∀ word', ({ word := word', quote } : Lexer).words (normalizeFrom quote before text) =
        .ok (assemble word' ((pieces quote before text).flatMap Piece.apart))

theorem ReadAs.cons {quote' before' : Option Char}
    (h : ReadAs quote' before' text) (piece : List Piece) (added : Option Text → Option Text)
    (hpieces : pieces quote before (c :: text) = piece ++ pieces quote' before' text)
    (hnormalize : normalizeFrom quote before (c :: text) = c :: normalizeFrom quote' before' text)
    (hstep : ∀ word text, ({ word, quote } : Lexer).words (c :: text) =
      ({ word := added word, quote := quote' } : Lexer).words text)
    (hglued : ∀ word rest, assemble word (piece.flatMap Piece.glued ++ rest) =
      assemble (added word) rest)
    (hapart : ∀ word rest, assemble word (piece.flatMap Piece.apart ++ rest) =
      assemble (added word) rest) : ReadAs quote before (c :: text) := by
  intro word tokens hwords
  rw [hstep] at hwords
  obtain ⟨hread, hnormal⟩ := h _ _ hwords
  rw [hpieces, flatMap_append, flatMap_append, hglued]
  refine ⟨hread, fun word' => ?_⟩
  rw [hnormalize, hstep, hnormal, hapart]

/-- A character that ends the word begun, in both readings. -/
theorem ReadAs.ends {before' : Option Char} (h : ReadAs none before' text) (piece : Piece)
    (between : List Text) (hblank : isBlank c = true)
    (hpieces : pieces none before (c :: text) = piece :: pieces none before' text)
    (hglued : piece.glued = [none])
    (hnormalize : ∀ word, ({ word } : Lexer).words (normalizeFrom none before (c :: text)) =
      (({} : Lexer).words (normalizeFrom none before' text)).map fun words =>
        word.toList ++ (between ++ words))
    (hapart : ∀ word rest, assemble word (piece.apart ++ rest) =
      word.toList ++ (between ++ assemble none rest)) : ReadAs none before (c :: text) := by
  intro word tokens hwords
  rw [Lexer.words_blank hblank] at hwords
  cases hrest : ({} : Lexer).words text with
  | error e => rw [hrest] at hwords; cases hwords
  | ok rest =>
    rw [hrest] at hwords
    obtain rfl := Except.ok.inj hwords
    obtain ⟨rfl, hnormal⟩ := h _ _ hrest
    rw [hpieces, flatMap_cons, flatMap_cons, hglued]
    refine ⟨rfl, fun word' => ?_⟩
    rw [hnormalize, hnormal none, hapart]
    rfl

/-- A line continuation leaves no trace in either reading, and any other escape the same one. -/
theorem ReadAs.escape {next : Char} (h : ReadAs quote (some next) text) (hsingle : quote ≠ some '\'')
    (hplain : quote = none ∨ quote = some '"') : ReadAs quote before ('\\' :: next :: text) := by
  have hpieces : pieces quote before ('\\' :: next :: text) =
      escapePieces quote next ++ pieces quote (some next) text := by
    rw [pieces, if_neg hsingle]
    rfl
  intro word tokens hwords
  rw [words_escape hplain] at hwords
  obtain ⟨hread, hnormal⟩ := h _ _ hwords
  rw [hpieces, flatMap_append, flatMap_append, assemble_escape]
  refine ⟨hread, fun word' => ?_⟩
  rw [normalizeFrom, if_neg hsingle]
  by_cases hnewline : next = '\n'
  · subst hnewline
    exact hnormal word'
  · have hsame : (escapePieces quote next).flatMap Piece.apart =
        (escapePieces quote next).flatMap Piece.glued := by
      rw [escapePieces, if_neg hnewline]
      split <;> rfl
    simp only [if_true, List.head?_cons, tail_cons, if_neg hnewline]
    rw [words_escape hplain, hsame, assemble_escape]
    exact hnormal _

/-- **The two readings of a text.** -/
theorem readAs (quote before : Option Char) (text : Text) (hquote : IsQuote quote) :
    ReadAs quote before text := by
  induction quote, before, text using pieces.induct with
  | case1 quote before =>
    intro word tokens h
    rcases hquote with rfl | rfl | rfl
    · have htokens : word.toList = tokens := Except.ok.inj h
      rw [pieces, ← htokens]
      exact ⟨rfl, fun word' => by rw [normalizeFrom]; rfl⟩
    · cases h
    · cases h
  | case2 before text ih =>
    refine (ih (.inl rfl)).cons [] id ?_ ?_ (words_unquote _) (fun _ _ => rfl) (fun _ _ => rfl)
    · simp [pieces]
    · simp [normalizeFrom]
  | case3 before c text hc ih =>
    refine (ih (.inr (.inl rfl))).cons [.char c] (fun w => some (w.getD [] ++ [c])) ?_ ?_
      (words_quoted hc (by simp)) (fun _ _ => rfl) (fun _ _ => rfl)
    · simp [pieces, hc]
    · simp [normalizeFrom, hc]
  | case4 quote before text hsingle hnone =>
    intro word tokens h
    rw [List.head?_eq_none_iff.mp hnone] at h
    rcases isQuote_cases hquote hsingle with rfl | rfl <;> cases h
  | case5 quote before text hsingle next hnext ih =>
    obtain ⟨rest, rfl⟩ := List.head?_eq_some_iff.mp hnext
    exact (ih hquote).escape hsingle (isQuote_cases hquote hsingle)
  | case6 before text hsingle hslash ih =>
    refine (ih (.inl rfl)).cons [] id ?_ ?_ (words_unquote _) (fun _ _ => rfl) (fun _ _ => rfl)
    · simp [pieces]
    · simp [normalizeFrom]
  | case7 before c text hslash hc hsingle ih =>
    refine (ih (.inr (.inr rfl))).cons [.char c] (fun w => some (w.getD [] ++ [c])) ?_ ?_
      (words_quoted hc (by simp [hslash])) (fun _ _ => rfl) (fun _ _ => rfl)
    · simp [pieces, hc, hslash]
    · simp [normalizeFrom, hc, hslash]
  | case8 quote before c text hsingle hslash hdouble hc ih =>
    obtain rfl := isQuote_none hquote hsingle hdouble
    refine (ih ?_).cons [.mark] (fun w => some (w.getD [] ++ [])) ?_ ?_ (words_mark hc)
      (fun _ _ => rfl) (fun _ _ => rfl)
    · rcases hc with rfl | rfl
      · exact .inr (.inl rfl)
      · exact .inr (.inr rfl)
    · simp [pieces, hc, hslash]
    · simp [normalizeFrom, hc, hslash]
  | case9 quote before text hsingle hdouble hslash hc ih =>
    -- an unquoted newline ends the command, which the normal form writes as a separator
    obtain rfl := isQuote_none hquote hsingle hdouble
    refine (ih (.inl rfl)).ends .newline [[';']] (by decide) (by simp [pieces]) rfl (fun word => ?_)
      fun _ _ => rfl
    have hnormalize : normalizeFrom none before ('\n' :: text) =
        setApart [';'] ++ normalizeFrom none (some '\n') text := by
      simp [normalizeFrom]
    rw [hnormalize, words_setApart (by decide)]
    rfl
  | case10 quote before c text hsingle hslash hdouble hmark hnewline operator hoperator ih =>
    obtain rfl := isQuote_none hquote hsingle hdouble
    obtain ⟨hmem, -⟩ := operatorAt_eq_some hoperator
    obtain ⟨hne, hplain, -⟩ := paddedOperators_plain operator hmem
    intro word tokens h
    rw [eq_operator_append hoperator, Lexer.words_plain_append (fun c hc => hplain c hc) hne] at h
    obtain ⟨rfl, hnormal⟩ := ih (.inl rfl) _ _ h
    have hpieces : pieces none before (c :: text) = .operator operator ::
        pieces none operator.getLast? (text.drop (operator.length - 1)) := by
      simp [pieces, hslash, hmark, hnewline, hoperator]
    have hnormalize : normalizeFrom none before (c :: text) = setApart operator ++
        normalizeFrom none operator.getLast? (text.drop (operator.length - 1)) := by
      simp [normalizeFrom, hslash, hmark, hnewline, hoperator]
    rw [hpieces]
    refine ⟨rfl, fun word' => ?_⟩
    rw [hnormalize, words_setApart hmem, hnormal none]
    rfl
  | case11 quote before c text hsingle hslash hdouble hmark hnewline hoperator ih =>
    obtain rfl := isQuote_none hquote hsingle hdouble
    have hpieces : pieces none before (c :: text) =
        (if isBlank c then .blank else .char c) :: pieces none (some c) text := by
      simp [pieces, hslash, hmark, hnewline, hoperator]
    have hnormalize : normalizeFrom none before (c :: text) = c :: normalizeFrom none (some c) text := by
      simp [normalizeFrom, hslash, hmark, hnewline, hoperator]
    cases hblank : isBlank c with
    | false =>
      rw [hblank] at hpieces
      have hplain : Lexer.IsPlain c := ⟨hblank, hslash, fun e => hmark (.inl e), fun e => hmark (.inr e)⟩
      exact (ih (.inl rfl)).cons [.char c] (fun w => some (w.getD [] ++ [c])) hpieces hnormalize
        (Lexer.words_plain hplain) (fun _ _ => rfl) (fun _ _ => rfl)
    | true =>
      rw [hblank] at hpieces
      refine (ih (.inl rfl)).ends .blank [] hblank hpieces rfl (fun word => ?_) fun _ _ => rfl
      rw [hnormalize, Lexer.words_blank hblank]
      rfl

theorem normalizeFrom_of_plain (quote before : Option Char)
    (h : ∀ c ∈ text, c ∉ separatorScan) : normalizeFrom quote before text = text := by
  have hrest : ∀ {c : Char} {rest : Text}, (∀ d ∈ c :: rest, d ∉ separatorScan) →
      ∀ d ∈ rest, d ∉ separatorScan := fun h d hd => h d (mem_cons_of_mem _ hd)
  induction quote, before, text using normalizeFrom.induct with
  | case1 => simp [normalizeFrom]
  | case2 before c text ih => simpa [normalizeFrom] using ih (hrest h)
  | case3 quote before text hsingle hnone =>
    simp [normalizeFrom, hsingle, List.head?_eq_none_iff.mp hnone]
  | case4 quote before text hsingle hnewline ih =>
    obtain ⟨rest, rfl⟩ := List.head?_eq_some_iff.mp hnewline
    exact absurd (by decide) (h '\n' (mem_cons_of_mem _ mem_cons_self))
  | case5 quote before text hsingle next hnext hnewline ih =>
    obtain ⟨rest, rfl⟩ := List.head?_eq_some_iff.mp hnext
    rw [tail_cons] at ih
    simp [normalizeFrom, hsingle, hnewline, ih (hrest (hrest h))]
  | case6 before c text hslash hsingle ih => simpa [normalizeFrom, hslash] using ih (hrest h)
  | case7 quote before c text hsingle hslash hdouble hmark ih =>
    simp [normalizeFrom, hsingle, hslash, hdouble, hmark, ih (hrest h)]
  | case8 => exact absurd (by decide) (h '\n' mem_cons_self)
  | case9 quote before c text hsingle hslash hdouble hmark hnewline operator hoperator ih =>
    obtain ⟨hmem, hstands⟩ := operatorAt_eq_some hoperator
    obtain ⟨hne, -, hscan⟩ := paddedOperators_plain operator hmem
    obtain ⟨a, rest, rfl⟩ := exists_cons_of_ne_nil hne
    obtain ⟨after, hafter⟩ := hstands
    obtain rfl : a = c := (List.cons.inj hafter).1
    exact absurd (hscan a mem_cons_self) (h a mem_cons_self)
  | case10 quote before c text hsingle hslash hdouble hmark hnewline hoperator ih =>
    simp [normalizeFrom, hsingle, hslash, hdouble, hmark, hnewline, hoperator, ih (hrest h)]

theorem normalizeSeparators_eq (text : Text) :
    normalizeSeparators text = normalizeFrom none none text := by
  rw [normalizeSeparators]
  split
  · rfl
  · rename_i hscan
    refine (normalizeFrom_of_plain none none fun c hc hmem => hscan ?_).symm
    exact any_eq_true.mpr ⟨c, hc, decide_eq_true hmem⟩

variable {tokens : List Text}

/-- **What a phrase's text is split into, and what it is with its separators set apart.** -/
theorem split_pieces (h : Shlex.split text = .ok tokens) :
    tokens = gluedWords (pieces none none text) ∧
      Shlex.split (normalizeSeparators text) = .ok (apartWords (pieces none none text)) := by
  obtain ⟨htokens, hnormal⟩ := readAs none none text (.inl rfl) none tokens h
  exact ⟨htokens, by rw [normalizeSeparators_eq]; exact hnormal none⟩

/-! ### Words that hold a separator -/

theorem assemble_break (word : Option Text) (before after : List (Option Text)) :
    assemble word (before ++ none :: after) = assemble word before ++ assemble none after := by
  induction before generalizing word with
  | nil => rfl
  | cons piece before ih =>
    cases piece with
    | none => rw [cons_append, assemble, assemble, ih, append_assoc]
    | some text => rw [cons_append, assemble, assemble, ih]

theorem mem_assemble {word : Option Text} {before after : List (Option Text)} :
    text ∈ assemble word (before ++ [none, some text, none] ++ after) := by
  rw [append_assoc, cons_append, assemble_break, mem_append]
  right
  rw [cons_append, assemble]
  exact mem_cons_self

theorem pieces_operator
    (h : .operator operator ∈ pieces quote before text) : operator ∈ commandSeparators := by
  induction quote, before, text using pieces.induct with
  | case1 => simp [pieces] at h
  | case2 before text ih => exact ih (by simpa [pieces] using h)
  | case3 before c text hc ih => exact ih (by simpa [pieces, hc] using h)
  | case4 quote before text hsingle hnone => simp [pieces, hsingle, hnone] at h
  | case5 quote before text hsingle next hnext ih =>
    refine ih ?_
    have hescape : .operator operator ∉ escapePieces quote next := by
      rw [escapePieces]
      split
      · simp
      split <;> simp
    simpa [pieces, hsingle, hnext, hescape] using h
  | case6 before text hsingle hslash ih => exact ih (by simpa [pieces] using h)
  | case7 before c text hslash hc hsingle ih => exact ih (by simpa [pieces, hslash, hc] using h)
  | case8 quote before c text hsingle hslash hdouble hmark ih =>
    exact ih (by simpa [pieces, hsingle, hslash, hdouble, hmark] using h)
  | case9 quote before text hsingle hdouble hslash hmark ih =>
    exact ih (by simpa [pieces, hsingle, hdouble] using h)
  | case10 quote before c text hsingle hslash hdouble hmark hnewline found hfound ih =>
    have hpieces : pieces quote before (c :: text) = .operator found ::
        pieces none found.getLast? (text.drop (found.length - 1)) := by
      simp [pieces, hsingle, hslash, hdouble, hmark, hnewline, hfound]
    rw [hpieces, mem_cons, Piece.operator.injEq] at h
    rcases h with rfl | h
    · exact (operatorAt_eq_some hfound).1
    · exact ih h
  | case11 quote before c text hsingle hslash hdouble hmark hnewline hnone ih =>
    refine ih ?_
    cases hblank : isBlank c <;>
      simpa [pieces, hsingle, hslash, hdouble, hmark, hnewline, hnone, hblank] using h

theorem separator_mem_apartWords {p : Piece} (h : p ∈ pieces none none text)
    (hp : p = .newline ∨ ∃ operator, p = .operator operator) :
    ∃ word ∈ apartWords (pieces none none text), word ∈ commandSeparators := by
  obtain ⟨before, after, hpieces⟩ := append_of_mem h
  rcases hp with rfl | ⟨operator, rfl⟩
  · refine ⟨[';'], ?_, by decide⟩
    rw [hpieces, apartWords, flatMap_append, flatMap_cons, ← append_assoc]
    exact mem_assemble
  · refine ⟨operator, ?_, pieces_operator h⟩
    rw [hpieces, apartWords, flatMap_append, flatMap_cons, ← append_assoc]
    exact mem_assemble

variable {ps : List Piece}

theorem Bare.tail {p : Piece} (h : Bare (p :: ps)) : Bare ps :=
  fun q hq => h q (mem_cons_of_mem _ hq)

theorem length_apart_le (h : Bare ps) {word word' : Option Text}
    (hword : word'.isSome = true → word.isSome = true) :
    (assemble word' (ps.flatMap Piece.apart)).length ≤
      (assemble word (ps.flatMap Piece.glued)).length := by
  induction ps generalizing word word' with
  | nil =>
    cases word' with
    | none => exact Nat.zero_le _
    | some text =>
      obtain ⟨other, rfl⟩ := Option.isSome_iff_exists.mp (hword rfl)
      exact le_rfl
  | cons p ps ih =>
    rw [flatMap_cons, flatMap_cons]
    cases p with
    | char c => exact ih h.tail fun _ => rfl
    | mark => exact ih h.tail fun _ => rfl
    | join quoted => exact ih h.tail fun _ => rfl
    | blank =>
      have hrest := @ih h.tail none none id
      have hbreak : word'.toList.length ≤ word.toList.length := by
        cases word' with
        | none => exact Nat.zero_le _
        | some text =>
          obtain ⟨other, rfl⟩ := Option.isSome_iff_exists.mp (hword rfl)
          exact le_rfl
      simp only [Piece.glued, Piece.apart, cons_append, nil_append, assemble,
        length_append]
      omega
    | newline => exact absurd rfl (h _ mem_cons_self).1
    | operator text => exact absurd rfl ((h _ mem_cons_self).2 text)

/-- The word begun is the same in both readings, or a continuation stands in it. -/
def Told (word word' : Option Text) : Prop := word = word' ∨ '\n' ∈ word.getD []

theorem Told.add {word word' : Option Text} (h : Told word word') (text : Text) :
    Told (some (word.getD [] ++ text)) (some (word'.getD [] ++ text)) := by
  rcases h with rfl | h
  · exact .inl rfl
  · exact .inr (mem_append_left _ h)

theorem Told.mem {word word' : Option Text} (h : Told word word')
    (htext : '\n' ∉ text) (hmem : text ∈ word.toList) : text ∈ word'.toList := by
  rcases h with rfl | h
  · exact hmem
  · rw [Option.mem_toList] at hmem
    rw [hmem] at h
    exact absurd h htext

theorem mem_apart_of_mem_glued (h : Bare ps) {word word' : Option Text}
    (hword : Told word word') (htext : '\n' ∉ text)
    (hmem : text ∈ assemble word (ps.flatMap Piece.glued)) :
    text ∈ assemble word' (ps.flatMap Piece.apart) := by
  induction ps generalizing word word' with
  | nil => exact hword.mem htext hmem
  | cons p ps ih =>
    rw [flatMap_cons] at hmem ⊢
    cases p with
    | char c => exact ih h.tail (hword.add [c]) hmem
    | mark => exact ih h.tail (hword.add []) hmem
    | join quoted =>
      refine ih h.tail (.inr ?_) hmem
      cases quoted <;> simp
    | blank =>
      simp only [Piece.glued, Piece.apart, cons_append, nil_append, assemble,
        mem_append] at hmem ⊢
      exact hmem.imp (hword.mem htext) (ih h.tail (.inl rfl))
    | newline => exact absurd rfl (h _ mem_cons_self).1
    | operator text => exact absurd rfl ((h _ mem_cons_self).2 text)

/-! ### Commands that match -/

theorem not_separator_of_segment {command : Text} {segment : List Text}
    (h : segment ∈ commandSegments command) : ∀ token ∈ segment, token ∉ commandSeparators := by
  intro token htoken
  simpa using Wildcards.not_of_mem_splitOnP (mem_filter.mp h).1 token htoken

theorem tail_subset_of_contains {segment phrase : List Text}
    (h : containsSubsequence segment phrase = true) : phrase.tail ⊆ segment := by
  rw [containsSubsequence] at h
  split at h
  · cases h
  · obtain ⟨start, -, hstands⟩ := any_eq_true.mp h
    rw [standsAt, Bool.and_eq_true, decide_eq_true_eq] at hstands
    rw [← hstands.2]
    exact fun token htoken => mem_of_mem_drop (mem_of_mem_take htoken)

theorem contains_iff {segment phrase : List Text} (hphrase : phrase ≠ [])
    (hlength : segment.length ≤ phrase.length) : containsSubsequence segment phrase = true ↔
      segment.head?.map basename = phrase.head?.map basename ∧ segment.tail = phrase.tail := by
  have hempty : phrase.isEmpty = false := by simpa using hphrase
  by_cases hshort : segment.length < phrase.length
  · have hfalse : containsSubsequence segment phrase = false := by simp [containsSubsequence, hshort]
    rw [hfalse]
    refine iff_of_false (by simp) fun ⟨hhead, htail⟩ => ?_
    have := congrArg List.length htail
    rw [length_tail, length_tail] at this
    cases segment with
    | nil =>
      obtain ⟨token, phrase, rfl⟩ := exists_cons_of_ne_nil hphrase
      cases hhead
    | cons token segment =>
      simp only [length_cons] at this hshort
      omega
  · have heq : segment.length - phrase.length + 1 = 1 := by omega
    have htake : segment.tail.take (phrase.length - 1) = segment.tail := by
      refine take_of_length_le ?_
      rw [length_tail]
      omega
    simp [containsSubsequence, hempty, hshort, heq, standsAt, htake]

def quoteBody (token : Text) : Text :=
  token.flatMap fun c => if c = '\'' then ['\'', '\\', '\'', '\''] else [c]

def quoteToken (token : Text) : Text := '\'' :: quoteBody token ++ ['\'']

/-- The tokens in single quotes, a blank after each. -/
def quoteTokens (tokens : List Text) : Text := tokens.flatMap fun token => quoteToken token ++ [' ']

theorem quoteBody_cons (c : Char) (token : Text) : quoteBody (c :: token) =
      (if c = '\'' then ['\'', '\\', '\'', '\''] else [c]) ++ quoteBody token := rfl

theorem quoteToken_append (token rest : Text) :
    quoteToken token ++ rest = '\'' :: (quoteBody token ++ '\'' :: rest) := by
  simp [quoteToken]

theorem Stripper.strip_keep {s : Stripper} (s' : Stripper) {rest : Text}
    (h : s.turn c rest = s'.keep c rest) : s.strip (c :: rest) = c :: s'.strip rest := by
  rw [strip, h]
  rfl

theorem strip_quoteBody (token rest : Text) (atWordStart : Bool) :
    ∃ atWordStart', Stripper.strip { quote := some '\'', atWordStart } (quoteBody token ++ rest) =
      quoteBody token ++ Stripper.strip { quote := some '\'', atWordStart := atWordStart' } rest := by
  induction token generalizing atWordStart with
  | nil => exact ⟨atWordStart, rfl⟩
  | cons c token ih =>
    rw [quoteBody_cons]
    by_cases hc : c = '\''
    · obtain ⟨atWordStart', hrest⟩ := ih false
      refine ⟨atWordStart', ?_⟩
      rw [if_pos hc, append_assoc, append_assoc, ← hrest]
      simp only [cons_append, nil_append]
      rw [Stripper.strip_keep { quote := none, atWordStart } rfl,
        Stripper.strip_keep { quote := none, atWordStart := false, escaped := true } rfl,
        Stripper.strip_keep { quote := none, atWordStart := false } rfl,
        Stripper.strip_keep { quote := some '\'', atWordStart := false } rfl]
    · obtain ⟨atWordStart', hrest⟩ := ih atWordStart
      refine ⟨atWordStart', ?_⟩
      rw [if_neg hc, append_assoc, append_assoc, ← hrest]
      refine Stripper.strip_keep _ ?_
      simp [Stripper.turn, hc]

theorem strip_quoteTokens (tokens : List Text) (atWordStart : Bool) :
    Stripper.strip { atWordStart } (quoteTokens tokens) = quoteTokens tokens := by
  induction tokens generalizing atWordStart with
  | nil => rw [quoteTokens, flatMap_nil, Stripper.strip]
  | cons token tokens ih =>
    rw [quoteTokens, flatMap_cons, ← quoteTokens, append_assoc, quoteToken_append]
    rw [Stripper.strip_keep { quote := some '\'', atWordStart := false } rfl]
    obtain ⟨atWordStart', hbody⟩ := strip_quoteBody token ('\'' :: ([' '] ++ quoteTokens tokens)) false
    rw [hbody]
    rw [Stripper.strip_keep { quote := none, atWordStart := atWordStart' } rfl,
      cons_append, nil_append,
      Stripper.strip_keep { quote := none, atWordStart := true } rfl, ih]

theorem normalizeFrom_quoteBody (token rest : Text) (before : Option Char) :
    ∃ before', normalizeFrom (some '\'') before (quoteBody token ++ rest) =
      quoteBody token ++ normalizeFrom (some '\'') before' rest := by
  induction token generalizing before with
  | nil => exact ⟨before, rfl⟩
  | cons c token ih =>
    rw [quoteBody_cons]
    by_cases hc : c = '\''
    · obtain ⟨before', hrest⟩ := ih (some '\'')
      refine ⟨before', ?_⟩
      rw [if_pos hc, append_assoc, append_assoc, ← hrest]
      simp [normalizeFrom]
    · obtain ⟨before', hrest⟩ := ih (some c)
      refine ⟨before', ?_⟩
      rw [if_neg hc, append_assoc, append_assoc, ← hrest]
      simp [normalizeFrom, hc]

theorem normalizeFrom_quoteTokens (tokens : List Text) (before : Option Char) :
    normalizeFrom none before (quoteTokens tokens) = quoteTokens tokens := by
  induction tokens generalizing before with
  | nil => simp [quoteTokens, normalizeFrom]
  | cons token tokens ih =>
    rw [quoteTokens, flatMap_cons, ← quoteTokens, append_assoc, quoteToken_append]
    obtain ⟨before', hbody⟩ :=
      normalizeFrom_quoteBody token ('\'' :: ' ' :: quoteTokens tokens) (some '\'')
    have hblank : ∀ before rest, operatorAt before (' ' :: rest) = none := by
      intro before rest
      simp [operatorAt, paddedOperators, commandSeparators]
    simp [normalizeFrom, hbody, hblank, ih]

theorem words_quoteBody (token rest word : Text) :
    ({ word := some word, quote := some '\'' } : Lexer).words (quoteBody token ++ rest) =
      ({ word := some (word ++ token), quote := some '\'' } : Lexer).words rest := by
  induction token generalizing word with
  | nil => rw [append_nil]; rfl
  | cons c token ih =>
    rw [quoteBody_cons]
    by_cases hc : c = '\''
    · subst hc
      rw [if_pos rfl]
      simp only [cons_append, nil_append]
      rw [words_unquote, words_escape (.inl rfl), words_mark (.inl rfl)]
      simp [ih]
    · rw [if_neg hc, append_assoc, cons_append, nil_append,
        words_quoted hc (by simp)]
      simp [ih]

theorem split_quoteTokens (tokens : List Text) : Shlex.split (quoteTokens tokens) = .ok tokens := by
  rw [Shlex.split]
  induction tokens with
  | nil => rfl
  | cons token tokens ih =>
    rw [quoteTokens, flatMap_cons, ← quoteTokens, append_assoc, quoteToken_append,
      words_mark (.inl rfl), words_quoteBody, words_unquote, cons_append, nil_append,
      Lexer.words_blank (by decide), ih]
    rfl

/-- **A command may hold any tokens.** -/
theorem commandTokens_quoteTokens (tokens : List Text) :
    commandTokens (quoteTokens tokens) = tokens := by
  simp only [commandTokens, stripCommentsAndHeredocBodies, strip_quoteTokens,
    normalizeSeparators_eq, normalizeFrom_quoteTokens, split_quoteTokens]

/-! ### The theorem -/

theorem commandSegments_eq {command : Text}
    (h : ∀ token ∈ commandTokens command, token ∉ commandSeparators)
    (htokens : commandTokens command = tokens) :
    commandSegments command = if tokens = [] then [] else [tokens] := by
  subst htokens
  rw [commandSegments, splitOnP_eq_singleton fun token htoken => by simpa using h token htoken]
  split <;> simp_all

theorem slash_separator : ∀ token ∈ commandSeparators,
    '/' :: token ∉ commandSeparators ∧ basename ('/' :: token) = basename token := by
  decide

/-- **Some command matches a phrase where no token but its first is a separator.** -/
theorem exists_command_iff {phrase : List Text} (hphrase : phrase ≠ []) :
    (∃ command, commandMatches [phrase] command = true) ↔
      ∀ token ∈ phrase.tail, token ∉ commandSeparators := by
  constructor
  · rintro ⟨command, hmatches⟩ token htoken
    obtain ⟨segment, hsegment, hany⟩ := any_eq_true.mp hmatches
    rw [any_cons, any_nil, Bool.or_false] at hany
    exact not_separator_of_segment hsegment token (tail_subset_of_contains hany htoken)
  · intro htail
    obtain ⟨first, rest, rfl⟩ := exists_cons_of_ne_nil hphrase
    -- a path to the first token is no separator, and has its basename
    have hhead : ∃ token, token ∉ commandSeparators ∧ basename token = basename first := by
      by_cases hfirst : first ∈ commandSeparators
      · exact ⟨'/' :: first, slash_separator first hfirst⟩
      · exact ⟨first, hfirst, rfl⟩
    obtain ⟨token, htoken, hbasename⟩ := hhead
    refine ⟨quoteTokens (token :: rest), ?_⟩
    have hseparators : ∀ t ∈ commandTokens (quoteTokens (token :: rest)), t ∉ commandSeparators := by
      rw [commandTokens_quoteTokens]
      intro t ht
      rcases mem_cons.mp ht with rfl | ht
      · exact htoken
      · exact htail t ht
    rw [commandMatches, commandSegments_eq hseparators (commandTokens_quoteTokens _),
      if_neg (cons_ne_nil _ _), any_cons, any_cons, any_nil, any_nil,
      Bool.or_false, Bool.or_false]
    refine (contains_iff (cons_ne_nil _ _) (by simp)).mpr ⟨?_, rfl⟩
    rw [List.head?_cons, List.head?_cons, Option.map_some, Option.map_some, hbasename]

theorem sortedTexts_isEmpty (texts : List Text) : (sortedTexts texts).isEmpty = texts.isEmpty := by
  rw [Bool.eq_iff_iff, List.isEmpty_iff, List.isEmpty_iff, eq_nil_iff_forall_not_mem,
    eq_nil_iff_forall_not_mem]
  simp only [mem_sortedTexts]

theorem matches_iff {phrase : Text} (h : tokenizePhrase phrase = .ok tokens)
    (command : Text) : Matches phrase command ↔ commandMatches [tokens] command = true := by
  have hevaluate : evaluateCommand (forbids phrase) (some { commands := [command] }) =
      .ok (if commandMatches [tokens] command then
        (forbids phrase).result .fail (forbids phrase).failureMessage
          (some (joinComma (sortedTexts [command])))
      else (forbids phrase).result .pass "No forbidden commands run.".toList) := by
    have hphrases : (forbids phrase).forbidden.mapM tokenizePhrase = .ok [tokens] := by
      rw [forbids, mapM_cons, h]
      rfl
    cases hmatches : commandMatches [tokens] command <;>
      simp [evaluateCommand, hphrases, bind, Except.bind, pure, Except.pure, hmatches,
        sortedTexts_isEmpty]
  rw [Matches, hevaluate]
  cases commandMatches [tokens] command <;> simp [Gate.result]

theorem unmatchablePhrase_eq (repr : Text → Text) (field : PhraseField) {phrase : Text}
    (h : tokenizePhraseWithSeparators phrase = .ok tokens) :
    ∃ answer, unmatchablePhrase repr phrase field = .ok answer ∧
      (answer.isSome = true ↔ ∃ token ∈ tokens, token ∈ commandSeparators) := by
  have hoffenders : offenders phrase =
      .ok (sortedTexts (Distinct.firsts id (tokens.filter (· ∈ commandSeparators)))) := by
    rw [offenders, h]
    rfl
  have hmem : ∀ token, token ∈ sortedTexts (Distinct.firsts id (tokens.filter (· ∈ commandSeparators))) ↔
      token ∈ tokens ∧ token ∈ commandSeparators := by
    intro token
    rw [mem_sortedTexts, Distinct.mem_firsts_id, mem_filter, decide_eq_true_eq]
  rw [unmatchablePhrase, hoffenders]
  cases hempty : sortedTexts (Distinct.firsts id (tokens.filter (· ∈ commandSeparators))) with
  | nil =>
    refine ⟨none, rfl, iff_of_false (by simp) ?_⟩
    rintro ⟨token, htoken⟩
    rw [hempty] at hmem
    exact absurd ((hmem token).mpr htoken) not_mem_nil
  | cons token rest =>
    refine ⟨some _, rfl, iff_of_true rfl ⟨token, (hmem token).mp ?_⟩⟩
    rw [hempty]
    exact mem_cons_self

theorem parsePhraseList_ok {gateId field : Text} {phrases accepted : List Text}
    (h : parsePhraseList gateId field phrases = .ok accepted) : ∀ phrase ∈ accepted,
      ∃ tokens, tokenizePhrase phrase = .ok tokens ∧ tokens ≠ [] := by
  have hall : ∀ (phrases : List Text), forM phrases (checkPhrase gateId field) = .ok () →
      ∀ phrase ∈ phrases, checkPhrase gateId field phrase = .ok () := by
    intro phrases hforM phrase hphrase
    induction phrases with
    | nil => cases hphrase
    | cons first phrases ih =>
      rw [forM_cons] at hforM
      cases hfirst : checkPhrase gateId field first with
      | error e => rw [hfirst] at hforM; cases hforM
      | ok u =>
        rw [hfirst] at hforM
        rcases mem_cons.mp hphrase with rfl | hphrase
        · exact hfirst
        · exact ih hforM hphrase
  intro phrase hphrase
  rw [parsePhraseList] at h
  cases hforM : forM phrases (checkPhrase gateId field) with
  | error e => rw [hforM] at h; cases h
  | ok u =>
    rw [hforM] at h
    obtain rfl := Except.ok.inj h
    have hcheck := hall _ hforM phrase hphrase
    rw [checkPhrase] at hcheck
    cases htokens : tokenizePhrase phrase with
    | error e => rw [htokens] at hcheck; cases hcheck
    | ok tokens =>
      rw [htokens] at hcheck
      refine ⟨tokens, rfl, ?_⟩
      rintro rfl
      cases hcheck

theorem newline_not_mem_separator : ∀ separator ∈ commandSeparators, '\n' ∉ separator := by
  decide

theorem SeparatorAlone.told (h : SeparatorAlone (pieces none none text)) :
    ∃ word ∈ apartWords (pieces none none text), word ∈ commandSeparators := by
  by_cases hbare : Bare (pieces none none text)
  · obtain ⟨word, hword, hseparator⟩ := h
    refine ⟨word, ?_, hseparator⟩
    exact mem_apart_of_mem_glued hbare (.inl rfl) (newline_not_mem_separator word hseparator)
      (mem_of_mem_tail hword)
  · rw [Bare] at hbare
    push Not at hbare
    obtain ⟨p, hp, hseparator⟩ := hbare
    refine separator_mem_apartWords hp ?_
    by_cases hnewline : p = .newline
    · exact .inl hnewline
    · exact .inr (hseparator hnewline)

theorem plain_iff (hne : gluedWords (pieces none none text) ≠ []) : Plain (pieces none none text) ↔
      (∀ word ∈ apartWords (pieces none none text), word ∉ commandSeparators) ∧
        containsSubsequence (apartWords (pieces none none text))
          (gluedWords (pieces none none text)) = true := by
  have hcontains : ∀ h : Bare (pieces none none text), _ := fun h =>
    contains_iff hne (length_apart_le h id)
  constructor
  · intro h
    exact ⟨h.spelled, (hcontains h.bare).mpr ⟨h.head, h.tail⟩⟩
  · rintro ⟨hspelled, hstands⟩
    have hbare : Bare (pieces none none text) := by
      intro p hp
      constructor
      · intro hnewline
        obtain ⟨word, hword, hseparator⟩ := separator_mem_apartWords hp (.inl hnewline)
        exact hspelled word hword hseparator
      · intro operator hoperator
        obtain ⟨word, hword, hseparator⟩ := separator_mem_apartWords hp (.inr ⟨operator, hoperator⟩)
        exact hspelled word hword hseparator
    obtain ⟨hhead, htail⟩ := (hcontains hbare).mp hstands
    exact ⟨hbare, hspelled, hhead, htail⟩

theorem matches_own_iff {phrase : Text}
    (htokens : tokenizePhrase phrase = .ok (gluedWords (phrasePieces phrase)))
    (hne : gluedWords (phrasePieces phrase) ≠ [])
    (hapart : tokenizePhraseWithSeparators phrase = .ok (apartWords (phrasePieces phrase)))
    (hspelled : ∀ word ∈ apartWords (phrasePieces phrase), word ∉ commandSeparators) :
    Matches phrase phrase ↔
      containsSubsequence (apartWords (phrasePieces phrase)) (gluedWords (phrasePieces phrase)) =
        true := by
  have hcommand : commandTokens phrase = apartWords (phrasePieces phrase) := by
    rw [tokenizePhraseWithSeparators] at hapart
    simp only [commandTokens, hapart]
  rw [matches_iff htokens, commandMatches,
    commandSegments_eq (by rwa [hcommand]) hcommand]
  split
  · rename_i hnil
    rw [hnil]
    have : 0 < (gluedWords (phrasePieces phrase)).length := length_pos_iff.mpr hne
    simp [containsSubsequence, this]
  · simp

/-- **What is said of a phrase is true exactly when a word after its first is a separator by itself,
or it has no separator and no continuation tells in its words.** -/
theorem truthful_iff (repr : Text → Text) (advice : PhraseField) {gateId field : Text}
    {phrases accepted : List Text} (h : parsePhraseList gateId field phrases = .ok accepted)
    {phrase : Text} (hphrase : phrase ∈ accepted) : Truthful repr advice phrase ↔
      SeparatorAlone (phrasePieces phrase) ∨ Plain (phrasePieces phrase) := by
  obtain ⟨tokens, htokens, hne⟩ := parsePhraseList_ok h phrase hphrase
  obtain ⟨rfl, hapart⟩ := split_pieces htokens
  have hcommands : (∀ command, ¬ Matches phrase command) ↔ SeparatorAlone (phrasePieces phrase) := by
    rw [← not_exists, exists_congr (matches_iff htokens), exists_command_iff hne]
    simp [SeparatorAlone, phrasePieces]
  obtain ⟨answer, hanswer, hsome⟩ := unmatchablePhrase_eq repr advice hapart
  have hreported : (∃ problem, unmatchablePhrase repr phrase advice = .ok (some problem)) ↔
      ∃ word ∈ apartWords (phrasePieces phrase), word ∈ commandSeparators := by
    rw [phrasePieces, ← hsome, hanswer, Option.isSome_iff_exists]
    simp
  have htold : SeparatorAlone (phrasePieces phrase) →
      ∃ word ∈ apartWords (phrasePieces phrase), word ∈ commandSeparators := SeparatorAlone.told
  constructor
  · intro ht
    by_cases hseparator : ∃ word ∈ apartWords (phrasePieces phrase), word ∈ commandSeparators
    · exact .inl (hcommands.mp (ht.reported.mp (hreported.mpr hseparator)))
    · have hnone : unmatchablePhrase repr phrase advice = .ok none := by
        cases answer with
        | none => exact hanswer
        | some problem => exact absurd (hreported.mp ⟨problem, hanswer⟩) hseparator
      have hspelled : ∀ word ∈ apartWords (phrasePieces phrase), word ∉ commandSeparators :=
        fun word hword hmem => hseparator ⟨word, hword, hmem⟩
      exact .inr ((plain_iff hne).mpr
        ⟨hspelled, (matches_own_iff htokens hne hapart hspelled).mp (ht.silent hnone)⟩)
  · rintro (halone | hplain)
    · refine ⟨⟨answer, hanswer⟩, ?_, fun hnone => ?_⟩
      · rw [hreported, hcommands]
        exact iff_of_true (htold halone) halone
      · obtain ⟨problem, hproblem⟩ := hreported.mpr (htold halone)
        rw [hnone] at hproblem
        cases hproblem
    · obtain ⟨hspelled, hstands⟩ := (plain_iff hne).mp hplain
      refine ⟨⟨answer, hanswer⟩, ?_, fun _ => ?_⟩
      · rw [hreported, hcommands]
        refine iff_of_false ?_ fun halone => ?_
        · rintro ⟨word, hword, hmem⟩
          exact hspelled word hword hmem
        · obtain ⟨word, hword, hmem⟩ := htold halone
          exact hspelled word hword hmem
      · exact (matches_own_iff htokens hne hapart hspelled).mpr hstands

theorem truthful_iff_pnpm : Truthful singleQuoted .forbidden "pnpm install".toList ↔
    SeparatorAlone (phrasePieces "pnpm install".toList) ∨
      Plain (phrasePieces "pnpm install".toList) := by
  have h : parsePhraseList "g".toList "forbidden".toList ["pnpm install".toList] =
      .ok ["pnpm install".toList] := by
    decide +kernel
  exact truthful_iff singleQuoted .forbidden h List.mem_cons_self

/-- `npm install;` is reported, though a command may hold `install;` as a token. -/
theorem not_truthful_glued : ¬ Truthful singleQuoted .forbidden "npm install;".toList := by
  have htokens : tokenizePhrase "npm install;".toList = .ok ["npm".toList, "install;".toList] := by
    decide +kernel
  have hapart : tokenizePhraseWithSeparators "npm install;".toList =
      .ok ["npm".toList, "install".toList, ";".toList] := by
    decide +kernel
  intro h
  obtain ⟨answer, hanswer, hsome⟩ := unmatchablePhrase_eq singleQuoted .forbidden hapart
  obtain ⟨problem, rfl⟩ := Option.isSome_iff_exists.mp (hsome.mpr (by decide))
  have hcommands : ∃ command, commandMatches [["npm".toList, "install;".toList]] command = true :=
    (exists_command_iff (List.cons_ne_nil _ _)).mpr (by decide)
  obtain ⟨command, hcommand⟩ := hcommands
  exact h.reported.mp ⟨problem, hanswer⟩ command ((matches_iff htokens command).mpr hcommand)

end Otari.Policy

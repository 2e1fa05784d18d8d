import Mathlib

/-!
# Support — Shlex — text read as shell words

A character at a time: blanks end a word, quotes and backslashes are removed (`split`).  Text is
read after other text from the state that left (`run_append`).
-/

namespace Shlex

inductive LexError where
  | noClosingQuotation
  | noEscapedCharacter
deriving DecidableEq

def LexError.message : LexError → List Char
  | .noClosingQuotation => "No closing quotation".toList
  | .noEscapedCharacter => "No escaped character".toList

/-- The word begun, the quote it stands in and whether the next character is escaped. -/
structure Lexer where
  word : Option (List Char) := none
  quote : Option Char := none
  escaped : Bool := false
deriving DecidableEq

def isBlank (c : Char) : Bool := c ∈ [' ', '\t', '\r', '\n']

namespace Lexer

def push (s : Lexer) (text : List Char) : Lexer :=
  { s with word := some (s.word.getD [] ++ text) }

/-- One character: the state it leaves and the word it ends. -/
def step (s : Lexer) (c : Char) : Lexer × List (List Char) :=
  if s.escaped then
    -- in double quotes a backslash before any other character stands for itself
    let text := if s.quote.isSome && c ≠ '\\' && s.quote ≠ some c then ['\\', c] else [c]
    ({ s.push text with escaped := false }, [])
  else
    match s.quote with
    | some q =>
      if c = q then ({ s with quote := none }, [])
      else if c = '\\' ∧ q = '"' then ({ s with escaped := true }, [])
      else (s.push [c], [])
    | none =>
      if isBlank c then ({}, s.word.toList)
      else if c = '\\' then ({ s.push [] with escaped := true }, [])
      else if c = '\'' ∨ c = '"' then ({ s.push [] with quote := some c }, [])
      else (s.push [c], [])

def finish (s : Lexer) : Except LexError (List (List Char)) :=
  if s.escaped then .error .noEscapedCharacter
  else if s.quote.isSome then .error .noClosingQuotation
  else .ok s.word.toList

/-- The state text leaves and the words it ends. -/
def run (s : Lexer) : List Char → Lexer × List (List Char)
  | [] => (s, [])
  | c :: text => ((run (s.step c).1 text).1, (s.step c).2 ++ (run (s.step c).1 text).2)

theorem run_cons (s : Lexer) (c : Char) (text : List Char) :
    s.run (c :: text) = (((s.step c).1.run text).1, (s.step c).2 ++ ((s.step c).1.run text).2) := rfl

/-- The words of text read from a state. -/
def words (s : Lexer) (text : List Char) : Except LexError (List (List Char)) :=
  (s.run text).1.finish.map ((s.run text).2 ++ ·)

theorem words_cons {s : Lexer} (s' : Lexer) {c : Char} (h : s.step c = (s', [])) (text : List Char) :
    s.words (c :: text) = s'.words text := by
  rw [words, words, run_cons, h]
  cases (s'.run text).1.finish <;> rfl

theorem words_blank {c : Char} (h : isBlank c = true) (word : Option (List Char))
    (text : List Char) :
    ({ word } : Lexer).words (c :: text) = (({} : Lexer).words text).map (word.toList ++ ·) := by
  have hstep : ({ word } : Lexer).step c = ({}, word.toList) := by simp [step, h]
  rw [words, words, run_cons, hstep]
  cases (({} : Lexer).run text).1.finish <;> simp [Except.map]

/-- A character that is no blank, quote or backslash. -/
def IsPlain (c : Char) : Prop := isBlank c = false ∧ c ≠ '\\' ∧ c ≠ '\'' ∧ c ≠ '"'

theorem words_plain {c : Char} (h : IsPlain c) (word : Option (List Char)) (text : List Char) :
    ({ word } : Lexer).words (c :: text) =
      ({ word := some (word.getD [] ++ [c]) } : Lexer).words text := by
  obtain ⟨hblank, hslash, hsingle, hdouble⟩ := h
  exact words_cons _ (by simp [step, push, hblank, hslash, hsingle, hdouble]) text

theorem words_plain_append {chars : List Char} (h : ∀ c ∈ chars, IsPlain c) (hne : chars ≠ [])
    (word : Option (List Char)) (text : List Char) : ({ word } : Lexer).words (chars ++ text) =
      ({ word := some (word.getD [] ++ chars) } : Lexer).words text := by
  induction chars generalizing word with
  | nil => exact absurd rfl hne
  | cons c chars ih =>
    rw [List.cons_append, words_plain (h c List.mem_cons_self)]
    by_cases hchars : chars = []
    · rw [hchars, List.nil_append]
    · rw [ih (fun d hd => h d (List.mem_cons_of_mem _ hd)) hchars]
      simp

end Lexer

/-- `shlex.split`, in POSIX mode and with no comments. -/
def split (text : List Char) : Except LexError (List (List Char)) := Lexer.words {} text

example : split "a 'b c'\\ d \"\\x\\\"\"".toList = .ok ["a".toList, "b c d".toList, "\\x\"".toList] := by
  decide

end Shlex

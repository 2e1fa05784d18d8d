import Otari.RateLimit.InProcess
import Otari.Support.Rounding

/-!
# Rate limit — SlidingWindow — one process's log, as its windows hold it

`SlidingWindowLog` with the three things a `_Window` is kept in, the deque, the costs and the total,
where `Stores` joins an entry and its cost; an instant is any instant of `time.monotonic`.  A cost
that the costs lack is the `KeyError` of `pop`, which is a result of its own (`none`).  Instants are
doubles and a width is whole seconds, so a cutoff is exact, and what is left of a window is rounded.  A
`Book` is what the log is for: it forgets nothing, and answers from what is live.
-/

namespace Otari.RateLimit.Sliding
open Expiry
open Rounding (double)

/-! ### The log -/

/-- `_Window`: one key's admitted entries, oldest first, and what each one counts for. -/
structure Window where
  entries : List (ℚ × Handle) := []
  costs : Handle → Option ℤ := fun _ => none
  total : ℤ := 0

structure SlidingWindowLog where
  requests : Key → Option Window := fun _ => none
  callCount : ℕ := 0
  widestWindow : ℚ := 0
  handles : ℕ := 0

/-- The `while` that pops what has left the window off the front. -/
def expire (cutoff : ℚ) : List (ℚ × Handle) → (Handle → Option ℤ) → ℤ → Option Window
  | [], costs, total => some ⟨[], costs, total⟩
  | oldest :: rest, costs, total =>
    if oldest.1 ≤ cutoff then
      match costs oldest.2 with
      | some cost => expire cutoff rest (Function.update costs oldest.2 none) (total - cost)
      | none => none
    else some ⟨oldest :: rest, costs, total⟩

def Window.expire (window : Window) (cutoff : ℚ) : Option Window :=
  Sliding.expire cutoff window.entries window.costs window.total

/-- The time until the oldest entry leaves the window. -/
def resetAfter (now windowSec : ℚ) : List (ℚ × Handle) → ℚ
  | [] => windowSec
  | oldest :: _ => double (double (oldest.1 + windowSec) - now)

namespace SlidingWindowLog

/-- `_cleanup`. -/
def cleanup (log : SlidingWindowLog) (cutoff : ℚ) : SlidingWindowLog :=
  { log with requests := fun key =>
      (log.requests key).filter fun window =>
        window.entries.getLast?.any fun newest => cutoff < newest.1 }

/-- What a hit does before it reads its window: it notes the width, and counts towards the next
cleanup. -/
def noted (log : SlidingWindowLog) (now windowSec : ℚ) : SlidingWindowLog :=
  let log := { log with widestWindow := max log.widestWindow windowSec }
  if cleanupInterval ≤ log.callCount + 1 then
    { log.cleanup (now - log.widestWindow) with callCount := 0 }
  else { log with callCount := log.callCount + 1 }

/-- The window of a key, as the `defaultdict` finds it. -/
def window (log : SlidingWindowLog) (key : Key) : Window := (log.requests key).getD {}

def hit (log : SlidingWindowLog) (now : ℚ) (key : Key) (limit : ℤ) (windowSec : ℚ) (cost : ℤ) :
    Option (RateLimitWindow × SlidingWindowLog) :=
  let log := log.noted now windowSec
  ((log.window key).expire (now - windowSec)).map fun window =>
    if window.total + cost ≤ limit then
      let handle := str log.handles
      let window : Window :=
        { entries := window.entries ++ [(now, handle)]
          costs := Function.update window.costs handle (some cost)
          total := window.total + cost }
      (⟨true, window.total, resetAfter now windowSec window.entries, some handle⟩,
        { log with
          requests := Function.update log.requests key (some window)
          handles := log.handles + 1 })
    else
      (⟨false, window.total, resetAfter now windowSec window.entries, none⟩,
        { log with requests := Function.update log.requests key (some window) })

def peek (log : SlidingWindowLog) (now : ℚ) (key : Key) (windowSec : ℚ) :
    Option (RateLimitWindow × SlidingWindowLog) :=
  match log.requests key with
  | none => some (⟨true, 0, windowSec, none⟩, log)
  | some window =>
    (window.expire (now - windowSec)).map fun window =>
      (⟨true, window.total, resetAfter now windowSec window.entries, none⟩,
        { log with requests := Function.update log.requests key (some window) })

def settle (log : SlidingWindowLog) (key : Key) (handle : Handle) (cost : ℤ) : SlidingWindowLog :=
  match log.requests key with
  | none => log
  | some window =>
    match window.costs handle with
    | none => log
    | some old =>
      let window : Window :=
        { window with
          total := window.total + (cost - old)
          costs := Function.update window.costs handle (some cost) }
      { log with requests := Function.update log.requests key (some window) }

end SlidingWindowLog

/-! ### Runs -/

/-- A call of the log, at an instant.  `settle` reads no clock. -/
inductive Act where
  | hit (now : ℚ) (key : Key) (limit cost : ℤ)
  | peek (now : ℚ) (key : Key)
  | settle (now : ℚ) (key : Key) (handle : Handle) (cost : ℤ)
  | cleanup (now : ℚ)

def Act.instant : Act → ℚ
  | .hit now .. | .peek now .. | .settle now .. | .cleanup now => now

/-- Instants do not decrease, from `T` on. -/
def Ordered (T : ℚ) : List Act → Prop
  | [] => True
  | act :: rest => T ≤ act.instant ∧ Ordered act.instant rest

/-- One call, where a key's limits have one width; a call that answers nothing answers `none`. -/
def SlidingWindowLog.step (width : Key → ℚ) (log : SlidingWindowLog) :
    Act → Option (Option RateLimitWindow × SlidingWindowLog)
  | .hit now key limit cost =>
    (log.hit now key limit (width key) cost).map fun done => (some done.1, done.2)
  | .peek now key => (log.peek now key (width key)).map fun done => (some done.1, done.2)
  | .settle _ key handle cost => some (none, log.settle key handle cost)
  | .cleanup now => some (none, log.cleanup (now - log.widestWindow))

/-- The answers of the calls in turn, and the log they leave. -/
def SlidingWindowLog.run (width : Key → ℚ) (log : SlidingWindowLog) :
    List Act → Option (List (Option RateLimitWindow) × SlidingWindowLog)
  | [] => some ([], log)
  | act :: rest =>
    (log.step width act).bind fun done =>
      (done.2.run width rest).map fun later => (done.1 :: later.1, later.2)

/-! ### The book -/

/-- An admitted entry, and what it counts for. -/
structure Admission where
  time : ℚ
  handle : Handle
  cost : ℤ

/-- When an entry leaves a window of this width. -/
def leaves (windowSec : ℚ) (e : Admission) : ℚ := e.time + windowSec

def spent (es : List Admission) : ℤ := (es.map Admission.cost).sum

/-- The entry with this handle counts for `cost` instead. -/
def recost (handle : Handle) (cost : ℤ) (e : Admission) : Admission :=
  if e.handle = handle then { e with cost := cost } else e

/-- The time until the oldest of the entries leaves, as doubles tell it. -/
def waits (now windowSec : ℚ) : List Admission → ℚ
  | [] => windowSec
  | oldest :: _ => double (double (leaves windowSec oldest) - now)

/-- Every entry ever admitted under a key, and how many handles were drawn. -/
structure Book where
  entries : Key → List Admission := fun _ => []
  handles : ℕ := 0

namespace Book

/-- The entries of a key that are younger than its window. -/
def current (width : Key → ℚ) (book : Book) (now : ℚ) (key : Key) : List Admission :=
  live (leaves (width key)) now (book.entries key)

/-- An entry is admitted exactly when what is live and its own cost fit the limit. -/
def hit (width : Key → ℚ) (book : Book) (now : ℚ) (key : Key) (limit cost : ℤ) :
    RateLimitWindow × Book :=
  let current := book.current width now key
  if spent current + cost ≤ limit then
    let new : Admission := ⟨now, str book.handles, cost⟩
    (⟨true, spent current + cost, waits now (width key) (current ++ [new]), some new.handle⟩,
      { entries := Function.update book.entries key (book.entries key ++ [new])
        handles := book.handles + 1 })
  else (⟨false, spent current, waits now (width key) current, none⟩, book)

def peek (width : Key → ℚ) (book : Book) (now : ℚ) (key : Key) : RateLimitWindow :=
  let current := book.current width now key
  ⟨true, spent current, waits now (width key) current, none⟩

def settle (book : Book) (key : Key) (handle : Handle) (cost : ℤ) : Book :=
  { book with entries :=
      Function.update book.entries key ((book.entries key).map (recost handle cost)) }

def step (width : Key → ℚ) (book : Book) : Act → Option RateLimitWindow × Book
  | .hit now key limit cost =>
    (some (book.hit width now key limit cost).1, (book.hit width now key limit cost).2)
  | .peek now key => (some (book.peek width now key), book)
  | .settle _ key handle cost => (none, book.settle key handle cost)
  | .cleanup _ => (none, book)

def run (width : Key → ℚ) (book : Book) : List Act → List (Option RateLimitWindow) × Book
  | [] => ([], book)
  | act :: rest =>
    let done := book.step width act
    let later := done.2.run width rest
    (done.1 :: later.1, later.2)

end Book

end Otari.RateLimit.Sliding

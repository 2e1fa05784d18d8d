import Otari.Support.Select

/-!
# Routing — Attempts — the walk over a plan's candidates

`_attempts.py`: `walk_attempts`, with every hook given, over what comes of each step of each
candidate (`Candidate`).  A failure is absorbed and a skip recorded when a later candidate is sent
the request, so the walk holds them back in `unabsorbed` and `unrecordedSkips`.

An attempt is reported with its place in the plan, since two candidates may be the same attempt.
-/

namespace Otari.Attempts

/-- What a step raises, by the branch of the walk that catches it. -/
inductive Raised (ρ ε : Type) where
  | cannotServe (refusal : ρ)
  | http (refusal : ρ)
  | toolIterations
  | unreachable
  | cancelled
  | failure (error : ε)

/-- A candidate, and what comes of its steps: the attempt it is sent as, its kwargs, whether it is
admitted with something to give back, what it is sent, and the call with whether it locks in. -/
structure Candidate (α ρ ε θ : Type) where
  planned : α
  credential : Except (Raised ρ ε) α
  kwargs : Except (Raised ρ ε) Unit
  admission : Except (Raised ρ ε) Bool
  preparation : Except (Raised ρ ε) Unit
  locksIn : Bool
  call : Except (Raised ρ ε) θ

/-- An attempt at its place in the plan. -/
abbrev Placed (α : Type) := ℕ × α

/-- What is seen of a walk. -/
inductive Event (α ρ ε : Type) where
  | tried (place : ℕ)
  | admitted (place : ℕ)
  | sent (place : ℕ)
  | dropped (place : ℕ) (sent : Bool)
  | absorbed (attempt : Placed α) (error : ε)
  | skipped (attempt : Placed α) (refusal : ρ)
  | terminal (attempt : Placed α)

inductive End (α ρ ε θ : Type) where
  | served (attempt : Placed α) (result : θ)
  | emptyPlan
  | refused (refusal : ρ)
  | toolIterations
  | unreachable
  | cancelled
  | failed (error : ε)
  | exhausted (failures : List (Placed α × ε))

structure Walk (α ρ ε : Type) where
  failures : List (Placed α × ε) := []
  refusals : List (Placed α × ρ) := []
  unabsorbed : Option (Placed α × ε) := none
  unrecordedSkips : List (Placed α × ρ) := []
  events : List (Event α ρ ε) := []

/-- Where the `try` block of a candidate ends, and the variables its handlers read. -/
structure Tried (α ρ ε θ : Type) where
  attempt : α
  admitted : Bool := false
  sent : Bool := false
  lockedIn : Bool := false
  outcome : Except (Raised ρ ε) θ

variable {α ρ ε θ ω : Type}

/-- The `try` block. -/
def Candidate.run (c : Candidate α ρ ε θ) : Tried α ρ ε θ :=
  match c.credential with
  | .error raised => { attempt := c.planned, outcome := .error raised }
  | .ok attempt =>
    match c.kwargs with
    | .error raised => { attempt, outcome := .error raised }
    | .ok () =>
      match c.admission with
      | .error raised => { attempt, outcome := .error raised }
      | .ok admitted =>
        match c.preparation with
        | .error raised => { attempt, admitted, outcome := .error raised }
        | .ok () => { attempt, admitted, sent := true, lockedIn := c.locksIn, outcome := c.call }

/-- What is held back is reported, since another candidate is about to be sent the request. -/
def Walk.flush (w : Walk α ρ ε) : Walk α ρ ε :=
  { w with
    unabsorbed := none
    unrecordedSkips := []
    events := w.events ++ (w.unabsorbed.map fun held => Event.absorbed held.1 held.2).toList ++
      w.unrecordedSkips.map fun held => Event.skipped held.1 held.2 }

def Walk.report (w : Walk α ρ ε) (events : List (Event α ρ ε)) : Walk α ρ ε :=
  { w with events := w.events ++ events }

/-- The walk where a candidate's `try` block ends. -/
def Walk.begun (w : Walk α ρ ε) (place : ℕ) (t : Tried α ρ ε θ) : Walk α ρ ε :=
  let w := w.report (.tried place :: if t.admitted then [.admitted place] else [])
  if t.sent then w.flush.report [.sent place] else w

/-- `if drop_admission is not None: await drop_admission(sent)`. -/
def Walk.drop (w : Walk α ρ ε) (place : ℕ) (t : Tried α ρ ε θ) (sent : Bool) : Walk α ρ ε :=
  w.report (if t.admitted then [.dropped place sent] else [])

def Walk.skip (w : Walk α ρ ε) (place : ℕ) (t : Tried α ρ ε θ) (refusal : ρ) : Walk α ρ ε :=
  { w with
    refusals := w.refusals ++ [((place, t.attempt), refusal)]
    unrecordedSkips := w.unrecordedSkips ++ [((place, t.attempt), refusal)] }.drop place t false

def Walk.fail (w : Walk α ρ ε) (place : ℕ) (t : Tried α ρ ε θ) (error : ε) : Walk α ρ ε :=
  { w with
    failures := w.failures ++ [((place, t.attempt), error)]
    unabsorbed := some ((place, t.attempt), error) }.drop place t t.sent

/-- `min(reversed(refusals), key=_retry_after)`. -/
def soonestRefusal [LinearOrder ω] (retryAfter : ρ → ω) (refusals : List (Placed α × ρ)) :
    Option (Placed α × ρ) :=
  Select.firstMax (fun entry => OrderDual.toDual (retryAfter entry.2)) refusals.reverse

def Walk.exhausted [LinearOrder ω] (retryAfter : ρ → ω) (last : Placed α) (w : Walk α ρ ε) :
    Walk α ρ ε × End α ρ ε θ :=
  match w.failures.getLast?, soonestRefusal retryAfter w.refusals with
  | none, some (refusedOn, refusal) => (w.report [.terminal refusedOn], .refused refusal)
  | lastFailed, _ =>
    let skips := w.unrecordedSkips.map fun held => Event.skipped held.1 held.2
    let named := lastFailed.elim last Prod.fst
    (w.report (skips ++ [.terminal named]), .exhausted w.failures)

def walkFrom [LinearOrder ω] (retryable : ε → Bool) (retryAfter : ρ → ω) (last : Placed α) :
    ℕ → List (Candidate α ρ ε θ) → Walk α ρ ε → Walk α ρ ε × End α ρ ε θ
  | _, [], w => w.exhausted retryAfter last
  | place, c :: rest, w =>
    let t := c.run
    let w := w.begun place t
    let terminal : Event α ρ ε := .terminal (place, t.attempt)
    match t.outcome with
    | .ok result => (w, .served (place, t.attempt) result)
    | .error (.cannotServe refusal) =>
      walkFrom retryable retryAfter last (place + 1) rest (w.skip place t refusal)
    | .error (.http refusal) =>
      let w := if t.lockedIn then w else w.drop place t false
      (w.report [terminal], .refused refusal)
    | .error .toolIterations => (w.report [terminal], .toolIterations)
    | .error .unreachable => (w, .unreachable)
    | .error .cancelled => (w, .cancelled)
    | .error (.failure error) =>
      if t.lockedIn || !retryable error then (w.report [terminal], .failed error)
      else walkFrom retryable retryAfter last (place + 1) rest (w.fail place t error)

/-- `walk_attempts`. -/
def walkAttempts [LinearOrder ω] (retryable : ε → Bool) (retryAfter : ρ → ω)
    (attempts : List (Candidate α ρ ε θ)) : Walk α ρ ε × End α ρ ε θ :=
  match attempts.getLast? with
  | none => ({}, .emptyPlan)
  | some last =>
    walkFrom retryable retryAfter (attempts.length - 1, last.planned) 0 attempts {}

end Otari.Attempts

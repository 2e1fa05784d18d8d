import Otari.Support.Runs

/-!
# Usage — LogWriter — the batched usage log

`services/log_writer.py`: `BatchLogWriter` queues usage rows, its loop takes them off the queue a
batch at a time and writes each batch, again after a failure and a row at a time where the database
refused it, and `stop` drains what is left, up to a timeout that may end the drain at any await.

A step is what the event loop runs between two awaits.  **Where each commit's answer reaches the
writer, a flush of which some rows are settled is not cut short, and none is put after `stop` has
ended, every accepted row is written or counted as dropped, exactly once, when the writer has
stopped** (`accounted_of_quiet`); what it reports as pending is never negative, in any run
(`pending_nonneg`).
-/

namespace Otari.Usage.Log
open List hiding isEmpty_iff
open Runs (Reached)

variable {Row : Type}

/-! ### A flush -/

/-- What the writer is set up with; its stop timeout is positive. -/
structure WriterConfig where
  maxBatch : ℕ := 100
  maxBatch_pos : 0 < maxBatch := by decide
  /-- Of zero, the queue is unbounded. -/
  maxQueue : ℕ := 10000
  retries : ℕ := 3

inductive Reply where
  | committed
  /-- One of `DATA_ERRORS`. -/
  | refused
  /-- Another of `DATABASE_ERRORS`, whether or not the commit took effect. -/
  | failed (landed : Bool)
  /-- An exception of any other kind. -/
  | raised (landed : Bool)
deriving DecidableEq

/-- The await a flush stands at. -/
inductive Stage (Row : Type) where
  | writing (attempt : ℕ)
  | sleeping (attempt : ℕ)
  /-- The write of a row, with the rows after it to come. -/
  | salvaging (row : Row) (rest : List Row)
deriving DecidableEq

/-- `_flush`, underway. -/
structure Flush (Row : Type) where
  batch : List Row
  stage : Stage Row := .writing 0
deriving DecidableEq

inductive Next (Row : Type) where
  | awaits (flush : Flush Row)
  | returns
  | raises

/-- What a flush does up to its next await: the rows the database then has, and those counted as
dropped. -/
structure Turn (Row : Type) where
  written : List Row := []
  dropped : List Row := []
  next : Next Row

def Flush.unsettled (flush : Flush Row) : List Row :=
  match flush.stage with
  | .writing _ | .sleeping _ => flush.batch
  | .salvaging row rest => row :: rest

def Flush.asked (flush : Flush Row) : List Row :=
  match flush.stage with
  | .writing _ => flush.batch
  | .sleeping _ => []
  | .salvaging row _ => [row]

/-- The rows of a write that took effect, or of none. -/
def landedRows (landed : Bool) (rows : List Row) : List Row := if landed then rows else []

/-- The loop of `_salvage`, from its next row. -/
def salvage (batch : List Row) : List Row → Next Row
  | [] => .returns
  | row :: rest => .awaits { batch, stage := .salvaging row rest }

def Flush.replied (config : WriterConfig) (flush : Flush Row) (reply : Reply) :
    Option (Turn Row) :=
  match flush.stage, reply with
  | .writing _, .committed => some { written := flush.batch, next := .returns }
  | .writing _, .refused => some { next := salvage flush.batch flush.batch }
  | .writing attempt, .failed landed =>
    if attempt < config.retries then
      some
        { written := landedRows landed flush.batch
          next := .awaits { flush with stage := .sleeping attempt } }
    else
      some
        { written := landedRows landed flush.batch
          dropped := flush.batch
          next := .returns }
  | .writing _, .raised landed =>
    some { written := landedRows landed flush.batch, next := .raises }
  | .sleeping _, _ => none
  | .salvaging row rest, .committed =>
    some { written := [row], next := salvage flush.batch rest }
  | .salvaging row rest, .refused => some { dropped := [row], next := salvage flush.batch rest }
  | .salvaging row rest, .failed landed =>
    some
      { written := landedRows landed [row]
        dropped := [row]
        next := salvage flush.batch rest }
  | .salvaging row _, .raised landed =>
    some { written := landedRows landed [row], next := .raises }

def Flush.woken (flush : Flush Row) : Option (Flush Row) :=
  match flush.stage with
  | .sleeping attempt => some { flush with stage := .writing (attempt + 1) }
  | _ => none

/-! ### The writer -/

/-- Where the loop and `stop` are. -/
inductive Phase (Row : Type) where
  | unstarted
  | idle
  | flushing (flush : Flush Row)
  /-- `stop` waits for the loop's flush. -/
  | finishing (flush : Flush Row)
  /-- The loop has ended, and `stop` goes on next. -/
  | ended
  /-- `_flush_all`: a chunk, and the rows of the chunks after it. -/
  | draining (flush : Flush Row) (rest : List Row)
  /-- `stop` has returned. -/
  | stopped
  /-- `stop` has raised. -/
  | broken
deriving DecidableEq

structure Writer (Row : Type) where
  queue : List Row := []
  /-- `_taken`. -/
  taken : ℤ := 0
  phase : Phase Row := .unstarted
  /-- The timeout of `stop` is yet to expire. -/
  timer : Bool := true
  /-- The rows of flushes that were cut short, still counted in `_taken`. -/
  stranded : List Row := []
  rows : List Row := []
  dropped : List Row := []
  /-- The rows `put` took. -/
  accepted : List Row := []
deriving DecidableEq

def Phase.flush? : Phase Row → Option (Flush Row)
  | .flushing flush | .finishing flush | .draining flush _ => some flush
  | _ => none

def Phase.rest : Phase Row → List Row
  | .draining _ rest => rest
  | _ => []

/-- `stop` is in `_flush_all`. -/
def Phase.drains : Phase Row → Bool
  | .draining _ _ => true
  | _ => false

/-- `stop` has ended. -/
def Phase.over : Phase Row → Bool
  | .stopped | .broken => true
  | _ => false

/-- `_queue.qsize() + _taken`. -/
def Writer.pending (writer : Writer Row) : ℤ := writer.queue.length + writer.taken

/-- The rows `_taken` counts. -/
def Writer.held (writer : Writer Row) : List Row :=
  writer.stranded ++ (writer.phase.flush?.elim [] (·.batch) ++ writer.phase.rest)

/-- `stop` counts what is left, and returns. -/
def Writer.finish (writer : Writer Row) : Writer Row :=
  if writer.pending = 0 then { writer with phase := .stopped }
  else
    { writer with
      taken := 0
      phase := .stopped
      stranded := []
      dropped := writer.dropped ++ (writer.queue ++ writer.held) }

/-- `_flush_all` goes on with its next chunk. -/
def Writer.nextChunk (config : WriterConfig) (writer : Writer Row) (rest : List Row) :
    Writer Row :=
  if rest.isEmpty then { writer with phase := .ended }.finish
  else
    { writer with
      phase := .draining { batch := rest.take config.maxBatch } (rest.drop config.maxBatch) }

/-- The rest of `_drain`, once the loop has ended. -/
def Writer.flushAll (config : WriterConfig) (writer : Writer Row) : Writer Row :=
  { writer with queue := [], taken := writer.taken + writer.queue.length }.nextChunk config
    writer.queue

/-- `_flush` of the loop or of `_flush_all` is over. -/
def Writer.flushed (config : WriterConfig) (writer : Writer Row) : Writer Row :=
  match writer.phase with
  | .flushing flush => { writer with taken := writer.taken - flush.batch.length, phase := .idle }
  | .finishing flush => { writer with taken := writer.taken - flush.batch.length, phase := .ended }
  | .draining flush rest =>
    { writer with taken := writer.taken - flush.batch.length }.nextChunk config rest
  | _ => writer

/-- An exception ends the flush: the loop logs it and goes on, `stop` raises it. -/
def Writer.raised (writer : Writer Row) : Writer Row :=
  { writer with
    stranded := writer.held
    phase :=
      match writer.phase with
      | .flushing _ => .idle
      | .finishing _ => .ended
      | _ => .broken }

def Phase.await (phase : Phase Row) (flush : Flush Row) : Phase Row :=
  match phase with
  | .flushing _ => .flushing flush
  | .finishing _ => .finishing flush
  | .draining _ rest => .draining flush rest
  | phase => phase

/-- The loop and `stop`, past an await of a flush. -/
def Writer.goOn (config : WriterConfig) (writer : Writer Row) : Next Row → Writer Row
  | .awaits flush => { writer with phase := writer.phase.await flush }
  | .returns => writer.flushed config
  | .raises => writer.raised

inductive Act (Row : Type) where
  | put (row : Row)
  | start
  | collect
  /-- The write awaited ends. -/
  | reply (reply : Reply)
  | wake
  | stop
  /-- `stop` goes on where the loop has ended. -/
  | resume
  /-- The timeout of `stop` expires; a write awaited then may have taken effect. -/
  | expire (landed : Bool)
deriving DecidableEq

section
variable [DecidableEq Row] (config : WriterConfig)

/-- The writer after a step, where it can be taken. -/
def Writer.step (writer : Writer Row) : Act Row → Option (Writer Row)
  | .put row =>
    -- a row is put once
    if row ∈ writer.accepted ∨ row ∈ writer.dropped then none
    else if config.maxQueue ≠ 0 ∧ config.maxQueue ≤ writer.queue.length then
      some { writer with dropped := writer.dropped ++ [row] }
    else some { writer with queue := writer.queue ++ [row], accepted := writer.accepted ++ [row] }
  | .start =>
    match writer.phase with
    | .unstarted => some { writer with phase := .idle }
    | _ => none
  | .collect =>
    match writer.phase with
    | .idle =>
      if writer.queue.isEmpty then none
      else
        some
          { writer with
            queue := writer.queue.drop config.maxBatch
            taken := writer.taken + (writer.queue.take config.maxBatch).length
            phase := .flushing { batch := writer.queue.take config.maxBatch } }
    | _ => none
  | .reply reply => do
    let flush ← writer.phase.flush?
    let turn ← flush.replied config reply
    -- the rows have primary keys
    if (writer.rows ++ turn.written).Nodup then
      return { writer with
        rows := writer.rows ++ turn.written
        dropped := writer.dropped ++ turn.dropped }.goOn config turn.next
    else none
  | .wake => do
    let flush ← writer.phase.flush?
    let next ← flush.woken
    return { writer with phase := writer.phase.await next }
  | .stop =>
    match writer.phase with
    | .unstarted => some (writer.flushAll config)
    | .idle => some { writer with phase := .ended }
    | .flushing flush => some { writer with phase := .finishing flush }
    | _ => none
  | .resume =>
    match writer.phase with
    | .ended => some (writer.flushAll config)
    | _ => none
  | .expire landed =>
    if writer.timer then
      match writer.phase with
      -- the loop's task is cancelled with the await of it, and the drain goes on, untimed
      | .finishing flush =>
        if (writer.rows ++ landedRows landed flush.asked).Nodup then
          some
            { writer with
              timer := false
              stranded := writer.held
              rows := writer.rows ++ landedRows landed flush.asked
              phase := .ended }
        else none
      | .ended => some { writer with timer := false }
      | .draining flush _ =>
        if (writer.rows ++ landedRows landed flush.asked).Nodup then
          some
            { writer with
              timer := false
              stranded := writer.held
              rows := writer.rows ++ landedRows landed flush.asked
              phase := .ended }.finish
        else none
      | _ => none
    else none

end

/-! ### Accounts -/

/-- **Nothing is lost silently**: once the writer has stopped, each accepted row is written or counted
as dropped, exactly once; what is reported as pending is not negative. -/
structure Accounted [DecidableEq Row] (writer : Writer Row) : Prop where
  settled : writer.phase.over = true → ∀ row ∈ writer.accepted,
    (writer.rows.count row = 1 ∧ writer.dropped.count row = 0) ∨
      (writer.rows.count row = 0 ∧ writer.dropped.count row = 1)
  pending : 0 ≤ writer.pending

/-- A commit took effect, and its answer is lost. -/
def Reply.unanswered : Reply → Bool
  | .failed landed | .raised landed => landed
  | _ => false

def Flush.Whole (flush : Flush Row) : Prop := flush.unsettled = flush.batch

/-- A step that loses no row and counts none twice. -/
def Quiet (writer : Writer Row) : Act Row → Prop
  | .put _ => writer.phase.over = false
  | .reply reply => reply.unanswered = false ∧ (reply = .raised false →
      writer.phase.drains = false ∧ ∀ flush ∈ writer.phase.flush?, flush.Whole)
  | .expire landed => ∀ flush ∈ writer.phase.flush?,
      landedRows landed flush.asked = [] ∧ flush.Whole
  | _ => True

instance [DecidableEq Row] (flush : Flush Row) : Decidable flush.Whole :=
  inferInstanceAs (Decidable (flush.unsettled = flush.batch))

instance [DecidableEq Row] (writer : Writer Row) : DecidablePred (Quiet writer)
  | .put _ => inferInstanceAs (Decidable (writer.phase.over = false))
  | .reply reply => inferInstanceAs (Decidable (reply.unanswered = false ∧ (reply = .raised false →
      writer.phase.drains = false ∧ ∀ flush ∈ writer.phase.flush?, flush.Whole)))
  | .expire landed => inferInstanceAs (Decidable (∀ flush ∈ writer.phase.flush?,
      landedRows landed flush.asked = [] ∧ flush.Whole))
  | .start | .collect | .wake | .stop | .resume => isTrue trivial

/-! ### What is pending -/

/-- `_taken` counts the rows held. -/
def Writer.Counted (writer : Writer Row) : Prop := writer.taken = writer.held.length

variable {writer : Writer Row}

theorem Writer.Counted.pending_eq (h : writer.Counted) :
    writer.pending = (writer.queue ++ writer.held).length := by
  rw [pending, h, length_append, Nat.cast_add]

@[simp] theorem Writer.held_ended (writer : Writer Row) (h : writer.phase = .ended) :
    writer.held = writer.stranded := by
  rw [held, h]
  exact append_nil _

theorem Writer.Counted.finish (h : writer.Counted)
    (hphase : writer.phase = .ended) : writer.finish.Counted := by
  rw [Writer.finish]
  split
  · rw [Counted, h, writer.held_ended hphase]
    exact congrArg _ (congrArg _ (append_nil _).symm)
  · rfl

theorem Writer.Counted.nextChunk {config : WriterConfig} {rest : List Row}
    (h : writer.taken = (writer.stranded ++ rest).length) :
    (writer.nextChunk config rest).Counted := by
  rw [Writer.nextChunk]
  split
  · rename_i hrest
    rw [List.isEmpty_iff] at hrest
    refine Counted.finish ?_ rfl
    rw [Counted, held_ended _ rfl]
    rw [hrest, append_nil] at h
    exact h
  · rw [Counted, h, held]
    simp [Phase.flush?, Phase.rest]

theorem Writer.Counted.flushAll {config : WriterConfig} (h : writer.Counted)
    (hheld : writer.held = writer.stranded) : (writer.flushAll config).Counted := by
  refine Counted.nextChunk ?_
  rw [Counted, hheld] at h
  rw [h, length_append, Nat.cast_add]

variable {flush : Flush Row} {reply : Reply} {turn : Turn Row}

theorem Flush.batch_of_replied {config : WriterConfig}
    (h : flush.replied config reply = some turn) :
    ∀ next, turn.next = .awaits next → next.batch = flush.batch := by
  have hsalvage : ∀ rest next, salvage flush.batch rest = .awaits next → next.batch = flush.batch := by
    intro rest next hnext
    cases rest with
    | nil => cases hnext
    | cons row rest => 
        cases hnext
        rfl
  intro next hnext
  cases hstage : flush.stage with
  | writing attempt =>
    simp only [replied, hstage] at h
    cases reply with
    | committed => cases h; cases hnext
    | refused => cases h; exact hsalvage _ _ hnext
    | failed landed =>
      simp only at h
      split at h
      · cases h; cases hnext; rfl
      · cases h; cases hnext
    | raised landed => cases h; cases hnext
  | sleeping attempt =>
    simp only [replied, hstage] at h
    cases h
  | salvaging row rest =>
    simp only [replied, hstage] at h
    cases reply with
    | raised landed => cases h; cases hnext
    | _ => cases h; exact hsalvage _ _ hnext

theorem Writer.Counted.flushed {config : WriterConfig} (h : writer.Counted) :
    (writer.flushed config).Counted := by
  unfold Writer.flushed
  rw [Counted, held] at h
  split
  · rename_i flush hphase
    rw [hphase] at h
    rw [Counted, h, held]
    simp [Phase.flush?, Phase.rest]
  · rename_i flush hphase
    rw [hphase] at h
    rw [Counted, h, held]
    simp [Phase.flush?, Phase.rest]
  · rename_i flush rest hphase
    rw [hphase] at h
    refine Counted.nextChunk ?_
    rw [h]
    simp [Phase.flush?, Phase.rest]
    omega
  · rwa [Counted, held]

theorem Writer.Counted.raised (h : writer.Counted) : writer.raised.Counted := by
  have hheld : writer.raised.held = writer.held := by
    rw [Writer.raised, held]
    cases writer.phase <;> exact append_nil _
  rw [Counted, hheld]
  exact h

theorem Writer.Counted.await (h : writer.Counted) {next : Flush Row}
    (hflush : writer.phase.flush? = some flush) (hbatch : next.batch = flush.batch) :
    { writer with phase := writer.phase.await next }.Counted := by
  have hheld : { writer with phase := writer.phase.await next }.held = writer.held := by
    rw [held, held]
    cases hphase : writer.phase <;> rw [hphase] at hflush <;> cases hflush <;>
      simp [Phase.await, Phase.flush?, Phase.rest, hbatch]
  rw [Counted, hheld]
  exact h

theorem Flush.batch_of_woken {next : Flush Row} (h : flush.woken = some next) :
    next.batch = flush.batch := by
  unfold woken at h
  split at h
  · cases h; rfl
  · cases h

variable {config : WriterConfig}

/-! ### Where the accepted rows are -/

/-- The rows a flush has to settle yet, past an await. -/
def Next.unsettled (flush : Flush Row) : Next Row → List Row
  | .awaits next => next.unsettled
  | .returns => []
  | .raises => flush.unsettled

def Phase.unsettled (phase : Phase Row) : List Row :=
  phase.flush?.elim [] Flush.unsettled ++ phase.rest

/-- The rows wherever they are; once the writer has stopped, those written and those dropped. -/
def Writer.located (writer : Writer Row) : List Row :=
  if writer.phase.over then writer.rows ++ writer.dropped
  else
    writer.queue ++ (writer.phase.unsettled ++ (writer.stranded ++ (writer.rows ++ writer.dropped)))

/-- The rows are there, none accepted since, and none dropped forgotten. -/
structure Writer.Locates (writer : Writer Row) (located accepted dropped : List Row) : Prop where
  located : writer.located.Perm located
  accepted : writer.accepted = accepted
  dropped : dropped ⊆ writer.dropped

theorem Writer.locates_finish (h : writer.Counted) (hphase : writer.phase = .ended) :
    writer.finish.Locates (writer.queue ++ (writer.stranded ++ (writer.rows ++ writer.dropped)))
      writer.accepted writer.dropped := by
  have hpending := h.pending_eq
  rw [writer.held_ended hphase] at hpending
  rw [Writer.finish]
  split
  · rename_i hzero
    have hnone : writer.queue ++ writer.stranded = [] := by
      rw [← length_eq_zero_iff]
      omega
    rw [append_eq_nil_iff] at hnone
    refine ⟨?_, rfl, List.Subset.refl _⟩
    rw [hnone.1, hnone.2]
    exact List.Perm.refl _
  · refine ⟨?_, rfl, subset_append_left _ _⟩
    rw [writer.held_ended hphase]
    -- the rows counted are put after those written and dropped
    have hperm : ((writer.rows ++ writer.dropped) ++ (writer.queue ++ writer.stranded)).Perm
        ((writer.queue ++ writer.stranded) ++ (writer.rows ++ writer.dropped)) :=
      perm_append_comm
    simpa [Writer.located, Phase.over] using hperm

theorem Writer.locates_nextChunk {rest : List Row}
    (h : writer.taken = (writer.stranded ++ rest).length) : (writer.nextChunk config rest).Locates
      (writer.queue ++ (rest ++ (writer.stranded ++ (writer.rows ++ writer.dropped))))
      writer.accepted writer.dropped := by
  rw [Writer.nextChunk]
  split
  · rename_i hrest
    rw [List.isEmpty_iff] at hrest
    subst hrest
    refine locates_finish ?_ rfl
    rw [Counted, held_ended _ rfl]
    rw [append_nil] at h
    exact h
  · refine ⟨?_, rfl, List.Subset.refl _⟩
    have hlocated : (rest.take config.maxBatch ++ rest.drop config.maxBatch) = rest :=
      take_append_drop _ _
    show (writer.queue ++ ((rest.take config.maxBatch ++ rest.drop config.maxBatch) ++
      (writer.stranded ++ (writer.rows ++ writer.dropped)))).Perm _
    rw [hlocated]

theorem Writer.locates_flushAll (config : WriterConfig) (h : writer.Counted)
    (hheld : writer.held = writer.stranded) : (writer.flushAll config).Locates
      (writer.queue ++ (writer.stranded ++ (writer.rows ++ writer.dropped)))
      writer.accepted writer.dropped := by
  refine locates_nextChunk ?_
  rw [Counted, hheld] at h
  rw [h, length_append, Nat.cast_add]

theorem Flush.unsettled_of_replied
    (h : flush.replied config reply = some turn) (hreply : reply.unanswered = false) :
    flush.unsettled = turn.written ++ (turn.dropped ++ turn.next.unsettled flush) := by
  have hsalvage : ∀ rest, (salvage flush.batch rest).unsettled flush = rest := by
    intro rest
    cases rest <;> rfl
  cases hstage : flush.stage with
  | writing attempt =>
    have hunsettled : flush.unsettled = flush.batch := by rw [unsettled, hstage]
    simp only [replied, hstage] at h
    rw [hunsettled]
    cases reply with
    | committed =>
      obtain rfl := Option.some.inj h
      exact (append_nil _).symm
    | refused =>
      obtain rfl := Option.some.inj h
      exact (hsalvage _).symm
    | failed landed =>
      obtain rfl : landed = false := hreply
      simp only at h
      split at h <;> obtain rfl := Option.some.inj h
      · rfl
      · exact (append_nil _).symm
    | raised landed =>
      obtain rfl : landed = false := hreply
      obtain rfl := Option.some.inj h
      exact hunsettled.symm
  | sleeping attempt =>
    simp only [replied, hstage] at h
    cases h
  | salvaging row rest =>
    have hunsettled : flush.unsettled = row :: rest := by rw [unsettled, hstage]
    simp only [replied, hstage] at h
    rw [hunsettled]
    cases reply with
    | committed =>
      obtain rfl := Option.some.inj h
      exact congrArg _ (hsalvage _).symm
    | refused =>
      obtain rfl := Option.some.inj h
      exact congrArg _ (hsalvage _).symm
    | failed landed =>
      obtain rfl : landed = false := hreply
      obtain rfl := Option.some.inj h
      exact congrArg _ (hsalvage _).symm
    | raised landed =>
      obtain rfl : landed = false := hreply
      obtain rfl := Option.some.inj h
      exact hunsettled.symm

theorem Writer.perm_held
    (hflush : writer.phase.flush? = some flush) (hwhole : flush.Whole) (others : List Row) :
    (writer.held ++ others).Perm (writer.phase.unsettled ++ (writer.stranded ++ others)) := by
  rw [held, Phase.unsettled, hflush, Option.elim_some, Option.elim_some, hwhole, append_assoc]
  exact perm_append_comm_assoc _ _ _

theorem Writer.locates_raised (hflush : writer.phase.flush? = some flush) (hwhole : flush.Whole)
    (hdrains : writer.phase.drains = false) :
    writer.raised.Locates (writer.queue ++ (writer.phase.unsettled ++
      (writer.stranded ++ (writer.rows ++ writer.dropped)))) writer.accepted writer.dropped := by
  refine ⟨?_, rfl, List.Subset.refl _⟩
  have hlocated : writer.raised.located =
      writer.queue ++ (writer.held ++ (writer.rows ++ writer.dropped)) := by
    unfold Writer.raised Writer.located
    cases hphase : writer.phase with
    | flushing current => rfl
    | finishing current => rfl
    | draining current rest => rw [hphase] at hdrains; cases hdrains
    | _ => rw [hphase] at hflush; cases hflush
  rw [hlocated]
  exact (perm_held hflush hwhole _).append_left _

theorem Writer.locates_goOn (config : WriterConfig) {next : Next Row}
    (h : writer.Counted) (hflush : writer.phase.flush? = some flush)
    (hraises : next = .raises → writer.phase.drains = false ∧ flush.Whole) :
    (writer.goOn config next).Locates
      (writer.queue ++ ((next.unsettled flush ++ writer.phase.rest) ++
        (writer.stranded ++ (writer.rows ++ writer.dropped)))) writer.accepted writer.dropped := by
  cases next with
  | awaits next =>
    refine ⟨?_, rfl, List.Subset.refl _⟩
    rw [goOn, located]
    cases hphase : writer.phase <;> rw [hphase] at hflush <;> cases hflush <;> exact .refl _
  | returns =>
    rw [Counted, held] at h
    rw [goOn, flushed]
    cases hphase : writer.phase with
    | flushing current => exact ⟨.refl _, rfl, List.Subset.refl _⟩
    | finishing current => exact ⟨.refl _, rfl, List.Subset.refl _⟩
    | draining current rest =>
      rw [hphase] at h
      refine locates_nextChunk ?_
      simp only [Phase.flush?, Phase.rest, Option.elim_some, length_append,
        Nat.cast_add] at h ⊢
      omega
    | _ => rw [hphase] at hflush; cases hflush
  | raises =>
    have hraised := locates_raised hflush (hraises rfl).2 (hraises rfl).1
    rw [Phase.unsettled, hflush] at hraised
    exact hraised

inductive Writer.Takes (config : WriterConfig) (writer : Writer Row) : Act Row → Writer Row → Prop where
  | refused {row : Row} (hnew : ¬ (row ∈ writer.accepted ∨ row ∈ writer.dropped)) :
      Takes config writer (.put row) { writer with dropped := writer.dropped ++ [row] }
  | accepted {row : Row} (hnew : ¬ (row ∈ writer.accepted ∨ row ∈ writer.dropped)) :
      Takes config writer (.put row)
        { writer with queue := writer.queue ++ [row], accepted := writer.accepted ++ [row] }
  | start (hphase : writer.phase = .unstarted) :
      Takes config writer .start { writer with phase := .idle }
  | collect (hphase : writer.phase = .idle) :
      Takes config writer .collect
        { writer with
          queue := writer.queue.drop config.maxBatch
          taken := writer.taken + (writer.queue.take config.maxBatch).length
          phase := .flushing { batch := writer.queue.take config.maxBatch } }
  | reply {reply : Reply} {flush : Flush Row} {turn : Turn Row}
      (hflush : writer.phase.flush? = some flush)
      (hturn : flush.replied config reply = some turn) :
      Takes config writer (.reply reply)
        ({ writer with
          rows := writer.rows ++ turn.written
          dropped := writer.dropped ++ turn.dropped }.goOn config turn.next)
  | wake {flush next : Flush Row} (hflush : writer.phase.flush? = some flush)
      (hwoken : flush.woken = some next) :
      Takes config writer .wake { writer with phase := writer.phase.await next }
  | drain {act : Act Row} (hphase : writer.phase = .unstarted ∨ writer.phase = .ended)
      (hact : ∀ row, act ≠ .put row) : Takes config writer act (writer.flushAll config)
  | cancel (hphase : writer.phase = .idle) :
      Takes config writer .stop { writer with phase := .ended }
  | await {flush : Flush Row} (hphase : writer.phase = .flushing flush) :
      Takes config writer .stop { writer with phase := .finishing flush }
  | expireFinishing {flush : Flush Row} {landed : Bool} (hphase : writer.phase = .finishing flush) :
      Takes config writer (.expire landed)
        { writer with
          timer := false
          stranded := writer.held
          rows := writer.rows ++ landedRows landed flush.asked
          phase := .ended }
  | expireEnded {landed : Bool} (hphase : writer.phase = .ended) :
      Takes config writer (.expire landed) { writer with timer := false }
  | expireDraining {flush : Flush Row} {rest : List Row} {landed : Bool}
      (hphase : writer.phase = .draining flush rest) :
      Takes config writer (.expire landed)
        { writer with
          timer := false
          stranded := writer.held
          rows := writer.rows ++ landedRows landed flush.asked
          phase := .ended }.finish

variable {next : Writer Row} {act : Act Row}

theorem Writer.Counted.step (h : writer.Counted)
    (hstep : writer.Takes config act next) : next.Counted := by
  have hstranded : ∀ rows : List Row,
      { writer with timer := false, stranded := writer.held, rows, phase := .ended }.Counted := by
    intro rows
    rw [Counted, h]
    exact congrArg _ (congrArg _ (append_nil _).symm)
  cases hstep with
  | refused _ => exact h
  | accepted _ => exact h
  | start hphase =>
    rw [Counted, h, held, held, hphase]
    rfl
  | collect hphase =>
    rw [Counted, h, held, held, hphase]
    simp [Phase.flush?, Phase.rest]
  | @reply reply flush turn hflush hturn =>
    have hcounted : { writer with
        rows := writer.rows ++ turn.written
        dropped := writer.dropped ++ turn.dropped }.Counted := h
    unfold Writer.goOn
    cases hnext : turn.next with
    | awaits next => exact hcounted.await hflush (Flush.batch_of_replied hturn next hnext)
    | returns => exact hcounted.flushed
    | raises => exact hcounted.raised
  | wake hflush hwoken => exact h.await hflush (Flush.batch_of_woken hwoken)
  | drain hphase _ =>
    refine h.flushAll ?_
    rcases hphase with hphase | hphase
    · rw [held, hphase]
      exact append_nil _
    · exact held_ended _ hphase
  | cancel hphase =>
    rw [Counted, h, held, held, hphase]
    rfl
  | await hphase =>
    rw [Counted, h, held, held, hphase]
    rfl
  | expireFinishing _ => exact hstranded _
  | expireEnded _ => exact h
  | expireDraining _ => exact (hstranded _).finish rfl

theorem Flush.raised_of_replied
    (h : flush.replied config reply = some turn) (hnext : turn.next = .raises) :
    ∃ landed, reply = .raised landed := by
  have hsalvage : ∀ rest, salvage flush.batch rest ≠ .raises := by
    rintro (_ | ⟨row, rest⟩) hraises <;> cases hraises
  cases hstage : flush.stage with
  | writing attempt =>
    simp only [replied, hstage] at h
    cases reply with
    | committed => cases h; cases hnext
    | refused => cases h; exact absurd hnext (hsalvage _)
    | failed landed =>
      simp only at h
      split at h <;> cases h <;> cases hnext
    | raised landed => exact ⟨landed, rfl⟩
  | sleeping attempt =>
    simp only [replied, hstage] at h
    cases h
  | salvaging row rest =>
    simp only [replied, hstage] at h
    cases reply with
    | raised landed => exact ⟨landed, rfl⟩
    | _ => cases h; exact absurd hnext (hsalvage _)

theorem Flush.unsettled_of_woken {next : Flush Row} (h : flush.woken = some next) :
    next.unsettled = flush.unsettled := by
  cases hstage : flush.stage with
  | sleeping attempt =>
    simp only [woken, hstage] at h
    cases h
    rw [unsettled, unsettled, hstage]
  | _ => simp only [woken, hstage] at h; cases h

theorem Writer.located_eq (h : writer.phase.over = false) :
    writer.located = writer.queue ++ (writer.phase.unsettled ++
      (writer.stranded ++ (writer.rows ++ writer.dropped))) := by
  rw [located, h]
  rfl

theorem Phase.over_of_flush {phase : Phase Row}
    (h : phase.flush? = some flush) : phase.over = false := by
  cases phase with
  | stopped => cases h
  | broken => cases h
  | _ => rfl

/-- **A quiet step moves the rows, and loses none.** -/
theorem Writer.locates_step (h : writer.Counted)
    (hquiet : Quiet writer act) (hput : ∀ row, act ≠ .put row)
    (hstep : writer.Takes config act next) :
    next.Locates writer.located writer.accepted writer.dropped := by
  cases hstep with
  | refused _ => exact absurd rfl (hput _)
  | accepted _ => exact absurd rfl (hput _)
  | start hphase =>
    refine ⟨?_, rfl, List.Subset.refl _⟩
    rw [located, located, hphase]
    exact .refl _
  | collect hphase =>
    refine ⟨?_, rfl, List.Subset.refl _⟩
    have htake : ∀ others, (writer.queue.drop config.maxBatch ++
        (writer.queue.take config.maxBatch ++ others)).Perm (writer.queue ++ others) := by
      intro others
      have hperm := perm_append_comm_assoc (writer.queue.drop config.maxBatch)
        (writer.queue.take config.maxBatch) others
      rwa [← append_assoc (writer.queue.take _), take_append_drop] at hperm
    have hbefore : writer.located = writer.queue ++
        (writer.stranded ++ (writer.rows ++ writer.dropped)) := by
      rw [located, hphase]
      rfl
    rw [hbefore, located_eq rfl]
    rw [Phase.unsettled, append_assoc]
    exact htake _
  | @reply reply flush turn hflush hturn =>
    -- the reply says where each flushed row went, so no row is located twice
    have hcounted : { writer with
        rows := writer.rows ++ turn.written
        dropped := writer.dropped ++ turn.dropped }.Counted := h
    have hraises : turn.next = .raises → writer.phase.drains = false ∧ flush.Whole := by
      intro hnext
      obtain ⟨landed, rfl⟩ := Flush.raised_of_replied hturn hnext
      obtain rfl : landed = false := hquiet.1
      exact ⟨(hquiet.2 rfl).1, (hquiet.2 rfl).2 flush hflush⟩
    obtain ⟨hlocated, haccepted, hdropped⟩ := locates_goOn config hcounted hflush hraises
    refine ⟨hlocated.trans ?_, haccepted, fun row hrow => hdropped (mem_append_left _ hrow)⟩
    rw [located_eq (Phase.over_of_flush hflush), Phase.unsettled, hflush, Option.elim_some,
      Flush.unsettled_of_replied hturn hquiet.1, ← Multiset.coe_eq_coe]
    simp only [← Multiset.coe_add]
    ac_rfl
  | @wake flush next hflush hwoken =>
    refine ⟨?_, rfl, List.Subset.refl _⟩
    have hphase : (writer.phase.await next).unsettled = writer.phase.unsettled ∧
        (writer.phase.await next).over = writer.phase.over := by
      cases hphase : writer.phase <;> rw [hphase] at hflush <;> cases hflush <;>
        simp [Phase.await, Phase.unsettled, Phase.flush?, Phase.rest, Phase.over,
          Flush.unsettled_of_woken hwoken]
    rw [located, hphase.1, hphase.2]
    exact .refl _
  | drain hphase _ =>
    rcases hphase with hphase | hphase
    · have hlocates := locates_flushAll config h
        (by rw [held, hphase]; exact append_nil _)
      rw [located_eq (by rw [hphase]; rfl), hphase]
      exact hlocates
    · have hlocates := locates_flushAll config h (held_ended _ hphase)
      rw [located_eq (by rw [hphase]; rfl), hphase]
      exact hlocates
  | cancel hphase =>
    refine ⟨?_, rfl, List.Subset.refl _⟩
    rw [located, located, hphase]
    exact .refl _
  | await hphase =>
    refine ⟨?_, rfl, List.Subset.refl _⟩
    rw [located, located, hphase]
    exact .refl _
  | @expireFinishing flush landed hphase =>
    have hflush : writer.phase.flush? = some flush := by rw [hphase]; rfl
    obtain ⟨hlanded, hwhole⟩ := hquiet flush hflush
    refine ⟨?_, rfl, List.Subset.refl _⟩
    rw [located_eq (Phase.over_of_flush hflush), located_eq rfl, hlanded, append_nil]
    exact (perm_held hflush hwhole _).append_left _
  | expireEnded hphase => exact ⟨.refl _, rfl, List.Subset.refl _⟩
  | @expireDraining flush rest landed hphase =>
    have hflush : writer.phase.flush? = some flush := by rw [hphase]; rfl
    obtain ⟨hlanded, hwhole⟩ := hquiet flush hflush
    rw [hlanded, append_nil, located_eq (Phase.over_of_flush hflush)]
    have hcounted : { writer with
        timer := false, stranded := writer.held, phase := .ended }.Counted := by
      rw [Counted, h]
      exact congrArg _ (congrArg _ (append_nil _).symm)
    obtain ⟨hlocated, haccepted, hdropped⟩ := locates_finish hcounted rfl
    exact ⟨hlocated.trans ((perm_held hflush hwhole _).append_left _), haccepted, hdropped⟩

/-- The rows put, where they are: the accepted ones, and those a full queue dropped. -/
structure Writer.Kept (writer : Writer Row) : Prop where
  counted : writer.Counted
  nodup : writer.accepted.Nodup
  located : ∃ full, (∀ row ∈ full, row ∈ writer.dropped ∧ row ∉ writer.accepted) ∧
    (writer.accepted ++ full).Perm writer.located

theorem Writer.Kept.put {row : Row} (h : writer.Kept)
    (hover : writer.phase.over = false) (hstep : writer.Takes config (.put row) next) :
    next.Kept := by
  obtain ⟨hcounted, hnodup, full, hfull, hperm⟩ := h
  rw [located_eq hover] at hperm
  cases hstep with
  | refused hnew =>
    rw [not_or] at hnew
    refine ⟨hcounted, hnodup, full ++ [row], ?_, ?_⟩
    · intro other hother
      rcases mem_append.mp hother with hother | hother
      · exact ⟨mem_append_left _ (hfull other hother).1, (hfull other hother).2⟩
      · rw [mem_singleton.mp hother]
        exact ⟨mem_append_right _ mem_cons_self, hnew.1⟩
    · simp only [Writer.located, hover, Bool.false_eq_true, if_false]
      have hmore := hperm.append_right [row]
      simpa only [append_assoc] using hmore
  | accepted hnew =>
    rw [not_or] at hnew
    have haccepted : (writer.accepted ++ [row]).Nodup := by
      rw [← concat_eq_append]
      exact hnodup.concat hnew.1
    refine ⟨hcounted, haccepted, full, ?_, ?_⟩
    · intro other hother
      refine ⟨(hfull other hother).1, fun hmem => ?_⟩
      rcases mem_append.mp hmem with hmem | hmem
      · exact (hfull other hother).2 hmem
      · rw [mem_singleton.mp hmem] at hother
        exact hnew.2 (hfull row hother).1
    · simp only [Writer.located, hover, Bool.false_eq_true, if_false]
      rw [← Multiset.coe_eq_coe] at hperm ⊢
      simp only [← Multiset.coe_add] at hperm ⊢
      rw [add_right_comm, hperm]
      ac_rfl
  | drain _ hact => exact absurd rfl (hact row)

theorem Writer.Kept.step (h : writer.Kept)
    (hquiet : Quiet writer act) (hstep : writer.Takes config act next) : next.Kept := by
  by_cases hput : ∀ row, act ≠ .put row
  · obtain ⟨hlocated, haccepted, hdropped⟩ := locates_step h.counted hquiet hput hstep
    obtain ⟨full, hfull, hperm⟩ := h.located
    refine ⟨h.counted.step hstep, by rw [haccepted]; exact h.nodup, full, ?_, ?_⟩
    · intro row hrow
      rw [haccepted]
      exact ⟨hdropped (hfull row hrow).1, (hfull row hrow).2⟩
    · rw [haccepted]
      exact hperm.trans hlocated.symm
  · push Not at hput
    obtain ⟨row, rfl⟩ := hput
    exact h.put hquiet hstep

def Writer.Initial (writer : Writer Row) : Prop := writer = {}

theorem Writer.Initial.kept (h : writer.Initial) : writer.Kept := by
  subst h
  exact ⟨rfl, nodup_nil, [], forall_mem_nil _, .refl _⟩

variable [DecidableEq Row]

theorem Writer.takes_of_step
    (h : writer.step config act = some next) : writer.Takes config act next := by
  cases act with
  | put row =>
    simp only [Writer.step] at h
    split at h
    · cases h
    · rename_i hnew
      split at h
      · cases h; exact .refused hnew
      · cases h; exact .accepted hnew
  | start =>
    simp only [Writer.step] at h
    split at h
    · rename_i hphase
      cases h; exact .start hphase
    · cases h
  | collect =>
    simp only [Writer.step] at h
    split at h
    · rename_i hphase
      split at h
      · cases h
      · cases h; exact .collect hphase
    · cases h
  | reply reply =>
    simp only [Writer.step, Option.bind_eq_bind, Option.bind_eq_some_iff] at h
    obtain ⟨flush, hflush, turn, hturn, h⟩ := h
    split at h
    · cases h; exact .reply hflush hturn
    · cases h
  | wake =>
    simp only [Writer.step, Option.bind_eq_bind, Option.bind_eq_some_iff] at h
    obtain ⟨flush, hflush, next, hwoken, h⟩ := h
    cases h; exact .wake hflush hwoken
  | stop =>
    simp only [Writer.step] at h
    split at h
    · rename_i hphase
      cases h; exact .drain (.inl hphase) (fun _ h => by cases h)
    · rename_i hphase
      cases h; exact .cancel hphase
    · rename_i hphase
      cases h; exact .await hphase
    · cases h
  | resume =>
    simp only [Writer.step] at h
    split at h
    · rename_i hphase
      cases h; exact .drain (.inr hphase) (fun _ h => by cases h)
    · cases h
  | expire landed =>
    simp only [Writer.step] at h
    split at h
    · split at h
      · rename_i hphase
        split at h
        · cases h; exact .expireFinishing hphase
        · cases h
      · rename_i hphase
        cases h; exact .expireEnded hphase
      · rename_i hphase
        split at h
        · cases h; exact .expireDraining hphase
        · cases h
      · cases h
    · cases h

/-! ### Every run -/

/-- **The number of rows pending is never negative**, whatever is done to the writer. -/
theorem pending_nonneg {C : Writer Row → Act Row → Prop}
    (h : Reached Writer.Initial (Writer.step config) C writer) : 0 ≤ writer.pending := by
  have hcounted : writer.Counted := h.keeps
    (fun writer hinitial => hinitial.kept.counted)
    (fun writer act next hcounted _ hstep => hcounted.step (Writer.takes_of_step hstep))
  rw [hcounted.pending_eq]
  exact Int.natCast_nonneg _

/-- **A run of quiet steps accounts for every row.** -/
theorem accounted_of_quiet {writer : Writer Row}
    (h : Reached Writer.Initial (Writer.step config) Quiet writer) : Accounted writer := by
  refine ⟨fun hover row hrow => ?_, pending_nonneg h⟩
  have hkept : writer.Kept := h.keeps (fun writer hinitial => hinitial.kept)
    (fun writer act next hkept hquiet hstep => hkept.step hquiet (Writer.takes_of_step hstep))
  obtain ⟨full, hfull, hperm⟩ := hkept.located
  have haccepted : writer.accepted.count row = 1 := List.count_eq_one_of_mem hkept.nodup hrow
  have hnone : full.count row = 0 := List.count_eq_zero_of_not_mem fun hmem => (hfull row hmem).2 hrow
  have hcount := hperm.count_eq row
  rw [Writer.located, hover, if_pos rfl, List.count_append, List.count_append, haccepted,
    hnone] at hcount
  omega

theorem accounted_of_quiet_salvaged : Accounted
    ({ phase := .stopped, rows := [1], dropped := [2], accepted := [1, 2] } : Writer ℕ) := by
  have hrun : Runs.run (Writer.step {}) Quiet ({} : Writer ℕ)
      [.put 1, .put 2, .start, .collect, .reply .refused, .reply .committed, .reply .refused, .stop,
        .resume] =
      some { phase := .stopped, rows := [1], dropped := [2], accepted := [1, 2] } := by
    decide
  exact accounted_of_quiet (Runs.reached_run (.start rfl) hrun)

/-- A salvage cut by the timeout, one of its two rows written: both are counted as dropped. -/
theorem salvage_cut_not_accounted : ∃ writer : Writer ℕ,
    Reached Writer.Initial (Writer.step {}) (fun _ _ => True) writer ∧ ¬ Accounted writer := by
  have hrun : Runs.run (Writer.step {}) (fun _ _ => True) ({} : Writer ℕ)
      [.put 1, .put 2, .start, .collect, .reply .refused, .reply .committed, .stop, .expire false,
        .resume] =
      some { phase := .stopped, timer := false, rows := [1], dropped := [1, 2], accepted := [1, 2] } := by
    decide
  refine ⟨_, Runs.reached_run (.start rfl) hrun, fun h => ?_⟩
  have hfirst := h.settled rfl 1 (by decide)
  revert hfirst
  decide

end Otari.Usage.Log

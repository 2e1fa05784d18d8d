import Otari.Pricing.ImportedUsage
import Otari.Support.Runs
import Otari.Support.Tally

/-!
# Usage — Imports — importing a batch of usage events

`services/external_usage_service.py`: `ingestExternalEvents` attributes the events of a batch,
rejects those it cannot, counts a repeated id as a duplicate and builds a row of each event left; the
rows are inserted a chunk at a time, a key that is stored already being skipped, and a chunk another
constraint refuses is inserted again a row at a time.

Any number of batches is imported at once.  An inserted row is not seen until its chunk is committed,
and an insert of the same key waits for that.  **Where no row is refused on its own whose key is not
stored, and no import fails past its first commit, each batch counts all its events, a key is stored
once, the accepted counts come to the rows stored, and what a batch did not reject is stored when it
returns** (`truthful_of_quiet`).
-/

namespace Otari.Usage
open List
open Pricing (Key ExternalUsageEvent UsageLog ModelPricing PriceLists Importer)
open Metered (PricingError)
open Runs (Reached)

/-! ### Attribution -/

/-- What an import reads of its API key. -/
structure ApiKey where
  id : ℕ
  userId : Option Key
  excludeFromBudget : Bool
  rejectUserMismatch : Option Bool

/-- A call of `ingest_external_events`, and what it reads of the database. -/
structure Call where
  source : Key
  userId : Option Key
  events : List ExternalUsageEvent
  apiKey : Option ApiKey
  isMasterKey : Bool
  rejectUserMismatch : Bool
  users : List Key
  workspaceId : ℕ
  organizationId : Option ℕ
  prices : PriceLists

def present (text : Option Key) : Option Key := text.filter (!·.isEmpty)

/-- `API_ROOT`. -/
def apiRoot : Key := "/api/v1".toList

/-- `_resolve_target_user`. -/
def resolveTargetUser (eventUser batchUser keyUser : Option Key) (isMaster rejectMismatch : Bool) :
    Except Key Key :=
  let requested := (present eventUser).or (present batchUser)
  if isMaster then
    match requested with
    | none => .error ("user_id is required for master-key ingestion " ++
        "(set the batch user_id or a per-event user_id).").toList
    | some user => .ok user
  else
    match keyUser with
    | none => .error "This API key has no associated user to attribute usage to.".toList
    | some user =>
      match requested.filter (· ≠ user) with
      | some other =>
        if rejectMismatch then
          .error ("user_id '".toList ++ other ++ "' does not match this API key's user '".toList ++
            user ++ ("'. Omit user_id to attribute to the key's user, or use the master key to " ++
              "import for other users.").toList)
        else .ok user
      | none => .ok user

namespace Call

def keyUser (call : Call) : Option Key := call.apiKey.bind fun key => present key.userId

/-- `reject_mismatch`: the key's own setting, over the deployment's. -/
def rejectMismatch (call : Call) : Bool :=
  (call.apiKey.bind (·.rejectUserMismatch)).getD call.rejectUserMismatch

def candidateUsers (call : Call) : List Key :=
  (call.userId :: call.keyUser :: call.events.map (·.userId)).filterMap present

def activeUsers (call : Call) : List Key := call.candidateUsers.filter (· ∈ call.users)

/-- The user an event is attributed to, or why it is rejected. -/
def attributed (call : Call) (event : ExternalUsageEvent) : Except Key Key :=
  match resolveTargetUser event.userId call.userId call.keyUser call.isMasterKey
    call.rejectMismatch with
  | .error detail => .error detail
  | .ok user =>
    if user ∈ call.activeUsers then .ok user
    else .error ("user_id '".toList ++ user ++ "' not found. Create the user via POST ".toList ++
      apiRoot ++ "/users first.".toList)

def importer (call : Call) (user : Key) : Importer where
  source := call.source
  userId := user
  apiKeyId := call.apiKey.map (·.id)
  workspaceId := call.workspaceId

end Call

/-! ### The events read -/

/-- `ExternalIngestError`. -/
structure IngestError where
  index : ℕ
  sourceEventId : Key
  detail : Key
deriving DecidableEq

/-- `ExternalIngestResult`. -/
structure IngestResult where
  accepted : ℕ := 0
  duplicate : ℕ := 0
  rejected : ℕ := 0
  errors : List IngestError := []
deriving DecidableEq

/-- `_MAX_ERRORS`. -/
def maxErrors : ℕ := 100

/-- `_reject`. -/
def IngestResult.reject (result : IngestResult) (index : ℕ) (event : ExternalUsageEvent)
    (detail : Key) : IngestResult :=
  { result with
    rejected := result.rejected + 1
    errors :=
      if result.errors.length < maxErrors then
        result.errors ++ [{ index, sourceEventId := event.sourceEventId, detail }]
      else result.errors }

/-- The variables of the loop over the events. -/
structure Scan where
  result : IngestResult := {}
  seenInBatch : List Key := []
  rows : List UsageLog := []

def Call.turn (call : Call) (scan : Scan) (item : ExternalUsageEvent × ℕ) :
    Except PricingError Scan :=
  match call.attributed item.1 with
  | .error detail => .ok { scan with result := scan.result.reject item.2 item.1 detail }
  | .ok user =>
    if item.1.sourceEventId ∈ scan.seenInBatch then
      .ok { scan with result.duplicate := scan.result.duplicate + 1 }
    else do
      let row ← Pricing.buildRow (call.importer user) item.1
        (Pricing.importedRate call.prices call.organizationId call.events item.1)
      return { scan with
        seenInBatch := item.1.sourceEventId :: scan.seenInBatch
        rows := scan.rows ++ [row] }

def Call.scan (call : Call) : Except PricingError Scan := call.events.zipIdx.foldlM call.turn {}

/-! ### The rows inserted -/

/-- A source and an event's id. -/
abbrev EventKey := Key × Key

def rowKey (row : UsageLog) : EventKey := (row.source, row.sourceEventId)

/-- `_INSERT_CHUNK`. -/
def insertChunk : ℕ := 200

inductive Stage where
  /-- The statement that inserts a chunk: the rows it is yet to come to, those it inserted, and the
  rows of the chunks after it. -/
  | inserting (chunk todo inserted rest : List UsageLog)
  /-- `_insert_one_at_a_time`. -/
  | salvaging (todo rest : List UsageLog)
  | returned
  | raised

structure Batch where
  call : Call
  result : IngestResult := {}
  stage : Stage

def Batch.inserted (batch : Batch) : List UsageLog :=
  match batch.stage with
  | .inserting _ _ inserted _ => inserted
  | _ => []

/-- The loop of `_insert_rows`, from its next chunk. -/
def insertRows (rows : List UsageLog) : Stage :=
  if rows.isEmpty then .returned
  else .inserting (rows.take insertChunk) (rows.take insertChunk) [] (rows.drop insertChunk)

/-- The loop of `_insert_one_at_a_time`, from its next row. -/
def insertOneAtATime (todo rest : List UsageLog) : Stage :=
  if todo.isEmpty then insertRows rest else .salvaging todo rest

/-- `ingest_external_events`, up to its first insert. -/
def ingestExternalEvents (call : Call) : Batch :=
  if call.apiKey.any (!·.excludeFromBudget) then { call, stage := .raised }
  else
    match call.scan with
    | .error _ => { call, stage := .raised }
    | .ok scan => { call, result := scan.result, stage := insertRows scan.rows }

inductive Move where
  /-- The chunk's statement comes to its next row. -/
  | insert
  | commit
  /-- Another constraint refuses the chunk. -/
  | refuse
  | add
  /-- Another constraint refuses the row. -/
  | refuseRow
  /-- The database fails otherwise, and the import raises. -/
  | fail
deriving DecidableEq

/-- An import after a step, and the rows it committed, where the step can be taken: an insert of a
key waits for the import that inserted it last. -/
def Batch.step (stored : List UsageLog) (held : List EventKey) (batch : Batch) :
    Move → Option (Batch × List UsageLog)
  | .insert =>
    match batch.stage with
    | .inserting chunk (row :: todo) inserted rest =>
      if rowKey row ∈ (stored ++ inserted).map rowKey then
        some ({ batch with stage := .inserting chunk todo inserted rest }, [])
      else if rowKey row ∈ held then none
      else some ({ batch with stage := .inserting chunk todo (inserted ++ [row]) rest }, [])
    | _ => none
  | .commit =>
    match batch.stage with
    | .inserting chunk [] inserted rest =>
      some
        ({ batch with
          result.accepted := batch.result.accepted + inserted.length
          result.duplicate := batch.result.duplicate + (chunk.length - inserted.length)
          stage := insertRows rest }, inserted)
    | _ => none
  | .refuse =>
    match batch.stage with
    | .inserting chunk _ _ rest => some ({ batch with stage := .salvaging chunk rest }, [])
    | _ => none
  | .add =>
    match batch.stage with
    | .salvaging (row :: todo) rest =>
      if rowKey row ∈ stored.map rowKey then
        some
          ({ batch with
            result.duplicate := batch.result.duplicate + 1
            stage := insertOneAtATime todo rest }, [])
      else if rowKey row ∈ held then none
      else
        some
          ({ batch with
            result.accepted := batch.result.accepted + 1
            stage := insertOneAtATime todo rest }, [row])
    | _ => none
  | .refuseRow =>
    match batch.stage with
    | .salvaging (_ :: todo) rest =>
      some
        ({ batch with
          result.duplicate := batch.result.duplicate + 1
          stage := insertOneAtATime todo rest }, [])
    | _ => none
  | .fail =>
    match batch.stage with
    | .inserting .. | .salvaging .. => some ({ batch with stage := .raised }, [])
    | _ => none

/-! ### Imports at once -/

/-- The table, and every import there has been. -/
structure Imports where
  stored : List UsageLog := []
  batches : List Batch := []

inductive Act where
  | ingest (call : Call)
  | move (i : ℕ) (move : Move)

def heldKeys (batches : List Batch) : List EventKey :=
  batches.flatMap fun batch => batch.inserted.map rowKey

def Imports.step (imports : Imports) : Act → Option Imports
  | .ingest call =>
    some { imports with batches := imports.batches ++ [ingestExternalEvents call] }
  | .move i move => do
    let batch ← imports.batches[i]?
    let (next, committed) ← batch.step imports.stored (heldKeys imports.batches) move
    return { stored := imports.stored ++ committed, batches := imports.batches.set i next }

/-! ### Truthful outcomes -/

/-- What a batch reports as accepted, so far; nothing where it raised. -/
def Batch.reported (batch : Batch) : ℕ :=
  match batch.stage with
  | .raised => 0
  | _ => batch.result.accepted

def Batch.Returned (batch : Batch) : Prop := batch.stage = .returned

/-- **Importing is idempotent, and its outcome truthful.** -/
structure Truthful (imports : Imports) : Prop where
  counted : ∀ batch ∈ imports.batches, batch.Returned →
    batch.result.accepted + batch.result.duplicate + batch.result.rejected =
      batch.call.events.length
  unique : (imports.stored.map rowKey).Nodup
  accepted : (imports.batches.map Batch.reported).sum = imports.stored.length
  stored : ∀ batch ∈ imports.batches, batch.Returned → ∀ event ∈ batch.call.events, ∀ user,
    batch.call.attributed event = .ok user →
      ∃ row ∈ imports.stored, rowKey row = (batch.call.source, event.sourceEventId)

def Stage.salvaged? : Stage → Option UsageLog
  | .salvaging (row :: _) _ => some row
  | _ => none

/-- A step that refuses no row whose key is not stored, and raises past no commit. -/
def Quiet (imports : Imports) : Act → Prop
  | .move i .refuseRow => ∀ batch ∈ imports.batches[i]?, ∀ row ∈ batch.stage.salvaged?,
      rowKey row ∈ imports.stored.map rowKey
  | .move i .fail => ∀ batch ∈ imports.batches[i]?, batch.result.accepted = 0
  | _ => True

/-! ### The events of a batch -/

/-- The events read so far: each is counted or has its row, and each kept is a row. -/
structure Scan.Covers (call : Call) (events : List ExternalUsageEvent) (scan : Scan) : Prop where
  accepted : scan.result.accepted = 0
  counted : scan.result.duplicate + scan.result.rejected + scan.rows.length = events.length
  seen : ∀ id ∈ scan.seenInBatch, ∃ row ∈ scan.rows, rowKey row = (call.source, id)
  kept : ∀ event ∈ events, ∀ user, call.attributed event = .ok user →
    ∃ row ∈ scan.rows, rowKey row = (call.source, event.sourceEventId)

theorem rowKey_of_buildRow {importer : Importer} {event : ExternalUsageEvent}
    {pricing : Option ModelPricing} {row : UsageLog}
    (h : Pricing.buildRow importer event pricing = .ok row) :
    rowKey row = (importer.source, event.sourceEventId) := by
  unfold Pricing.buildRow at h
  cases pricing with
  | none =>
    rw [← Except.ok.inj h]
    rfl
  | some pricing =>
    obtain ⟨priced, -, hrow⟩ := bind_eq_ok.mp h
    rw [← Except.ok.inj hrow]
    rfl

theorem Scan.Covers.turn {call : Call} {events : List ExternalUsageEvent} {scan next : Scan}
    (h : scan.Covers call events) {item : ExternalUsageEvent × ℕ}
    (hturn : call.turn scan item = .ok next) : next.Covers call (events ++ [item.1]) := by
  obtain ⟨event, index⟩ := item
  obtain ⟨haccepted, hcounted, hseen, hkept⟩ := h
  -- the event is the last one kept, or was kept before
  have hlast : ∀ (rows : List UsageLog), (∀ row ∈ scan.rows, row ∈ rows) →
      (∀ user, call.attributed event = .ok user →
        ∃ row ∈ rows, rowKey row = (call.source, event.sourceEventId)) →
      ∀ other ∈ events ++ [event], ∀ user, call.attributed other = .ok user →
        ∃ row ∈ rows, rowKey row = (call.source, other.sourceEventId) := by
    intro rows hrows hnew other hother user huser
    rcases mem_append.mp hother with hother | hother
    · obtain ⟨row, hrow, hkey⟩ := hkept other hother user huser
      exact ⟨row, hrows row hrow, hkey⟩
    · obtain rfl := mem_singleton.mp hother
      exact hnew user huser
  rw [Call.turn] at hturn
  cases hattributed : call.attributed event with
  | error detail =>
    simp only [hattributed] at hturn
    obtain rfl := Except.ok.inj hturn
    refine ⟨haccepted, ?_, hseen, hlast _ (fun _ h => h) fun user huser => ?_⟩
    · simp only [IngestResult.reject, length_append, length_singleton]
      omega
    · rw [hattributed] at huser
      cases huser
  | ok user =>
    simp only [hattributed] at hturn
    split at hturn
    · rename_i hrepeated
      obtain rfl := Except.ok.inj hturn
      refine ⟨haccepted, ?_, hseen, hlast _ (fun _ h => h) fun _ _ => hseen _ hrepeated⟩
      simp only [length_append, length_singleton]
      omega
    · obtain ⟨row, hrow, hnext⟩ := bind_eq_ok.mp hturn
      obtain rfl := Except.ok.inj hnext
      have hkey : rowKey row = (call.source, event.sourceEventId) := rowKey_of_buildRow hrow
      have hnew : ∃ other ∈ scan.rows ++ [row],
          rowKey other = (call.source, event.sourceEventId) :=
        ⟨row, mem_append_right _ mem_cons_self, hkey⟩
      refine ⟨haccepted, ?_, ?_, hlast _ (fun _ h => mem_append_left _ h) fun _ _ => hnew⟩
      · simp only [length_append, length_singleton]
        omega
      · intro id hid
        rcases mem_cons.mp hid with rfl | hid
        · exact hnew
        · obtain ⟨other, hother, hotherKey⟩ := hseen id hid
          exact ⟨other, mem_append_left _ hother, hotherKey⟩

theorem Call.covers_scan {call : Call} {scan : Scan} (h : call.scan = .ok scan) :
    scan.Covers call call.events := by
  have hfold : ∀ (items : List (ExternalUsageEvent × ℕ)) (events : List ExternalUsageEvent)
      (begun : Scan), begun.Covers call events → items.foldlM call.turn begun = .ok scan →
      scan.Covers call (events ++ items.map Prod.fst) := by
    intro items
    induction items with
    | nil =>
      intro events begun hbegun hscan
      rw [← Except.ok.inj hscan, map_nil, append_nil]
      exact hbegun
    | cons item items ih =>
      intro events begun hbegun hscan
      rw [foldlM_cons] at hscan
      obtain ⟨next, hturn, hscan⟩ := bind_eq_ok.mp hscan
      rw [map_cons, ← singleton_append, ← append_assoc]
      exact ih _ next (hbegun.turn hturn) hscan
  have hstart : ({} : Scan).Covers call [] :=
    ⟨rfl, rfl, forall_mem_nil _, forall_mem_nil _⟩
  have hcovers := hfold _ _ _ hstart h
  rwa [nil_append, zipIdx_map_fst] at hcovers

/-! ### What an import keeps -/

def Stage.left : Stage → List UsageLog
  | .inserting chunk _ _ rest => chunk ++ rest
  | .salvaging todo rest => todo ++ rest
  | _ => []

/-- An import, over the rows stored. -/
structure Batch.Sound (stored : List UsageLog) (batch : Batch) : Prop where
  raised : batch.stage = .raised → batch.result.accepted = 0
  counted : batch.stage ≠ .raised →
    batch.result.accepted + batch.result.duplicate + batch.result.rejected +
      batch.stage.left.length = batch.call.events.length
  kept : batch.stage ≠ .raised → ∀ event ∈ batch.call.events, ∀ user,
    batch.call.attributed event = .ok user →
      (batch.call.source, event.sourceEventId) ∈ (stored ++ batch.stage.left).map rowKey
  /-- The rows of the chunk the statement has come to are stored or inserted. -/
  inserting : ∀ chunk todo inserted rest, batch.stage = .inserting chunk todo inserted rest →
    inserted.length + todo.length ≤ chunk.length ∧
      ∀ row ∈ chunk, row ∈ todo ∨ rowKey row ∈ (stored ++ inserted).map rowKey

variable {batch : Batch}

theorem Batch.Sound.mono {stored : List UsageLog} (h : batch.Sound stored)
    (committed : List UsageLog) : batch.Sound (stored ++ committed) where
  raised := h.raised
  counted := h.counted
  kept := by
    intro hstage event hevent user huser
    have hkept := h.kept hstage event hevent user huser
    simp only [map_append, mem_append] at hkept ⊢
    tauto
  inserting := by
    intro chunk todo inserted rest hstage
    obtain ⟨hlength, hchunk⟩ := h.inserting chunk todo inserted rest hstage
    refine ⟨hlength, fun row hrow => (hchunk row hrow).imp_right fun hkey => ?_⟩
    simp only [map_append, mem_append] at hkey ⊢
    tauto

@[simp] theorem left_insertRows (rows : List UsageLog) : (insertRows rows).left = rows := by
  rw [insertRows]
  split
  · rename_i hrows
    exact (isEmpty_iff.mp hrows).symm
  · exact take_append_drop _ _

@[simp] theorem left_insertOneAtATime (todo rest : List UsageLog) :
    (insertOneAtATime todo rest).left = todo ++ rest := by
  rw [insertOneAtATime]
  split
  · rename_i htodo
    rw [isEmpty_iff.mp htodo, left_insertRows, nil_append]
  · rfl

theorem insertRows_ne_raised (rows : List UsageLog) : insertRows rows ≠ .raised := by
  rw [insertRows]
  split <;> exact Stage.noConfusion

theorem insertOneAtATime_ne_raised (todo rest : List UsageLog) :
    insertOneAtATime todo rest ≠ .raised := by
  rw [insertOneAtATime]
  split
  · exact insertRows_ne_raised rest
  · exact Stage.noConfusion

/-- A chunk begun, none of whose rows is inserted. -/
def Stage.Fresh (stage : Stage) : Prop :=
  ∀ chunk todo inserted rest, stage = .inserting chunk todo inserted rest →
    todo = chunk ∧ inserted = []

theorem fresh_insertRows (rows : List UsageLog) : (insertRows rows).Fresh := by
  intro chunk todo inserted rest hstage
  rw [insertRows] at hstage
  split at hstage
  · cases hstage
  · cases hstage
    exact ⟨rfl, rfl⟩

theorem fresh_insertOneAtATime (todo rest : List UsageLog) :
    (insertOneAtATime todo rest).Fresh := by
  rw [insertOneAtATime]
  split
  · exact fresh_insertRows rest
  · intro chunk todo inserted rest hstage
    cases hstage

theorem Batch.Sound.of_fresh {stored : List UsageLog}
    (hraised : batch.stage ≠ .raised) (hfresh : batch.stage.Fresh)
    (hcounted : batch.result.accepted + batch.result.duplicate + batch.result.rejected +
      batch.stage.left.length = batch.call.events.length)
    (hkept : ∀ event ∈ batch.call.events, ∀ user, batch.call.attributed event = .ok user →
      (batch.call.source, event.sourceEventId) ∈ (stored ++ batch.stage.left).map rowKey) :
    batch.Sound stored where
  raised := fun h => absurd h hraised
  counted := fun _ => hcounted
  kept := fun _ => hkept
  inserting := by
    intro chunk todo inserted rest hstage
    obtain ⟨rfl, rfl⟩ := hfresh _ _ _ _ hstage
    exact ⟨le_of_eq (Nat.zero_add _), fun row hrow => .inl hrow⟩

theorem Batch.inserted_of_fresh (h : batch.stage.Fresh) : batch.inserted = [] := by
  rw [inserted]
  split
  · rename_i hstage
    exact (h _ _ _ _ hstage).2
  · rfl

theorem sound_ingest (stored : List UsageLog) (call : Call) :
    (ingestExternalEvents call).Sound stored ∧ (ingestExternalEvents call).inserted = [] ∧
      (ingestExternalEvents call).result.accepted = 0 := by
  have hraised : ({ call, stage := .raised } : Batch).Sound stored :=
    ⟨fun _ => rfl, fun h => absurd rfl h, fun h => absurd rfl h, fun _ _ _ _ h => by cases h⟩
  rw [ingestExternalEvents]
  split
  · exact ⟨hraised, rfl, rfl⟩
  · split
    · exact ⟨hraised, rfl, rfl⟩
    · rename_i scan hscan
      obtain ⟨haccepted, hcounted, -, hkept⟩ := Call.covers_scan hscan
      refine ⟨.of_fresh (insertRows_ne_raised _) (fresh_insertRows _) ?_ ?_,
        Batch.inserted_of_fresh (fresh_insertRows _), haccepted⟩
      · rw [left_insertRows, haccepted, Nat.zero_add]
        exact hcounted
      · intro event hevent user huser
        obtain ⟨row, hrow, hkey⟩ := hkept event hevent user huser
        rw [left_insertRows, ← hkey]
        exact mem_map_of_mem (mem_append_right _ hrow)

/-- What a step of an import commits and inserts: rows it had inserted, or one of a key that nobody
has. -/
structure Batch.Moved (stored : List UsageLog) (held : List EventKey) (batch next : Batch)
    (committed : List UsageLog) : Prop where
  accepted : next.result.accepted = batch.result.accepted + committed.length
  keys : ∀ key, ((committed ++ next.inserted).map rowKey).count key ≤
      (batch.inserted.map rowKey).count key ∨
    ((committed ++ next.inserted).map rowKey).count key ≤ 1 ∧
      key ∉ stored.map rowKey ∧ key ∉ held

/-- The step's condition, of the import alone. -/
def Batch.Quiet (stored : List UsageLog) (batch : Batch) : Move → Prop
  | .refuseRow => ∀ row ∈ batch.stage.salvaged?, rowKey row ∈ stored.map rowKey
  | .fail => batch.result.accepted = 0
  | _ => True

section
variable {stored : List UsageLog} {held : List EventKey} {batch next : Batch}
  {committed : List UsageLog}

theorem Batch.Sound.settled {row : UsageLog} {todo rest : List UsageLog} (h : batch.Sound stored)
    (hstage : batch.stage = .salvaging (row :: todo) rest) {result : IngestResult}
    (hcounted : result.accepted + result.duplicate + result.rejected =
      batch.result.accepted + batch.result.duplicate + batch.result.rejected + 1)
    (hkey : rowKey row ∈ (stored ++ committed).map rowKey) : Batch.Sound (stored ++ committed)
      { batch with result, stage := insertOneAtATime todo rest } := by
  have hraised : batch.stage ≠ .raised := by
    rw [hstage]
    exact Stage.noConfusion
  refine .of_fresh (insertOneAtATime_ne_raised _ _) (fresh_insertOneAtATime _ _) ?_ ?_
  · have hbefore := h.counted hraised
    rw [hstage] at hbefore
    rw [left_insertOneAtATime, hcounted, ← hbefore]
    simp only [Stage.left, length_append, length_cons]
    omega
  · intro event hevent user huser
    have hkept := h.kept hraised event hevent user huser
    rw [hstage] at hkept
    rw [left_insertOneAtATime]
    simp only [Stage.left, cons_append, map_append, map_cons, mem_append,
      mem_cons] at hkept hkey ⊢
    rcases hkept with hkept | hkept | hkept
    · exact .inl (.inl hkept)
    · rw [hkept]
      exact .inl hkey
    · exact .inr hkept

theorem Batch.Sound.advanced {chunk todo todo' inserted inserted' rest : List UsageLog}
    (h : batch.Sound stored) (hstage : batch.stage = .inserting chunk todo inserted rest)
    (hlength : inserted'.length + todo'.length ≤ inserted.length + todo.length)
    (htodo : ∀ row ∈ todo, row ∈ todo' ∨ rowKey row ∈ (stored ++ inserted').map rowKey)
    (hinserted : ∀ row ∈ inserted, row ∈ inserted') :
    Batch.Sound stored { batch with stage := .inserting chunk todo' inserted' rest } := by
  have hraised : batch.stage ≠ .raised := by
    rw [hstage]
    exact Stage.noConfusion
  obtain ⟨hle, hchunk⟩ := h.inserting _ _ _ _ hstage
  refine ⟨Stage.noConfusion, fun _ => ?_, fun _ => ?_, ?_⟩
  · have hcounted := h.counted hraised
    rw [hstage] at hcounted
    exact hcounted
  · have hkept := h.kept hraised
    rw [hstage] at hkept
    exact hkept
  · rintro _ _ _ _ ⟨⟩
    refine ⟨hlength.trans hle, fun row hrow => ?_⟩
    rcases hchunk row hrow with hmem | hkey
    · exact htodo row hmem
    · right
      obtain ⟨other, hother, hkey⟩ := mem_map.mp hkey
      rw [← hkey]
      refine mem_map_of_mem ?_
      rcases mem_append.mp hother with hother | hother
      · exact mem_append_left _ hother
      · exact mem_append_right _ (hinserted other hother)

theorem Batch.Sound.chunkCommitted {chunk inserted rest : List UsageLog} (h : batch.Sound stored)
    (hstage : batch.stage = .inserting chunk [] inserted rest) : Batch.Sound (stored ++ inserted)
      { batch with
        result.accepted := batch.result.accepted + inserted.length
        result.duplicate := batch.result.duplicate + (chunk.length - inserted.length)
        stage := insertRows rest } := by
  have hraised : batch.stage ≠ .raised := by
    rw [hstage]
    exact Stage.noConfusion
  obtain ⟨hle, hchunk⟩ := h.inserting _ _ _ _ hstage
  refine .of_fresh (insertRows_ne_raised _) (fresh_insertRows _) ?_ ?_
  · have hcounted := h.counted hraised
    rw [hstage] at hcounted
    simp only [Stage.left, length_append, length_nil] at hcounted hle
    simp only [left_insertRows]
    omega
  · intro event hevent user huser
    have hkept := h.kept hraised event hevent user huser
    rw [hstage] at hkept
    rw [left_insertRows]
    simp only [Stage.left, map_append, mem_append] at hkept ⊢
    rcases hkept with hkept | hkept | hkept
    · exact .inl (.inl hkept)
    · -- each row of the chunk was inserted, or its key was there
      left
      obtain ⟨row, hrow, hkey⟩ := mem_map.mp hkept
      rcases hchunk row hrow with hmem | hmem
      · cases hmem
      · rw [hkey] at hmem
        simpa only [map_append, mem_append] using hmem
    · exact .inr hkept

theorem Batch.Sound.refused {chunk todo inserted rest : List UsageLog} (h : batch.Sound stored)
    (hstage : batch.stage = .inserting chunk todo inserted rest) :
    Batch.Sound stored { batch with stage := .salvaging chunk rest } := by
  have hraised : batch.stage ≠ .raised := by
    rw [hstage]
    exact Stage.noConfusion
  refine .of_fresh Stage.noConfusion (fun _ _ _ _ h => by cases h) ?_ ?_
  · have hcounted := h.counted hraised
    rw [hstage] at hcounted
    exact hcounted
  · have hkept := h.kept hraised
    rw [hstage] at hkept
    exact hkept

theorem Batch.Sound.failed (haccepted : batch.result.accepted = 0) :
    Batch.Sound stored { batch with stage := .raised } :=
  ⟨fun _ => haccepted, fun h => absurd rfl h, fun h => absurd rfl h, fun _ _ _ _ h => by cases h⟩

theorem Batch.Moved.of_fresh (hfresh : next.stage.Fresh)
    (haccepted : next.result.accepted = batch.result.accepted) :
    batch.Moved stored held next [] := by
  refine ⟨haccepted, fun key => .inl ?_⟩
  rw [nil_append, Batch.inserted_of_fresh hfresh]
  exact Nat.zero_le _

theorem Batch.Sound.step (h : batch.Sound stored) {move : Move} (hquiet : batch.Quiet stored move)
    (hstep : batch.step stored held move = some (next, committed)) :
    next.Sound (stored ++ committed) ∧ batch.Moved stored held next committed := by
  cases move with
  | insert =>
    simp only [Batch.step] at hstep
    split at hstep
    · rename_i chunk row todo inserted rest hstage
      have hinserted : batch.inserted = inserted := by rw [Batch.inserted, hstage]
      split at hstep
      · rename_i hkey
        -- the key is taken, so the row is not inserted
        cases hstep
        refine ⟨(h.advanced hstage ?_ ?_ fun _ hrow => hrow).mono _, rfl, fun key => .inl ?_⟩
        · simp
        · intro other hother
          rcases mem_cons.mp hother with rfl | hother
          · exact .inr hkey
          · exact .inl hother
        · rw [hinserted]
          exact le_rfl
      · rename_i hkey
        split at hstep
        · cases hstep
        · rename_i hheld
          cases hstep
          rw [map_append, mem_append, not_or] at hkey
          refine ⟨(h.advanced hstage ?_ ?_ fun _ hrow => mem_append_left _ hrow).mono _, rfl,
            fun key => ?_⟩
          · simp only [length_append, length_cons, length_nil]
            omega
          · intro other hother
            rcases mem_cons.mp hother with rfl | hother
            · right
              simp
            · exact .inl hother
          · rw [hinserted]
            by_cases hsame : key = rowKey row
            · subst hsame
              right
              refine ⟨?_, hkey.1, hheld⟩
              simp [Batch.inserted, count_eq_zero_of_not_mem hkey.2]
            · left
              simp [Batch.inserted, count_cons_of_ne (Ne.symm hsame)]
    · cases hstep
  | commit =>
    simp only [Batch.step] at hstep
    split at hstep
    · rename_i chunk inserted rest hstage
      cases hstep
      refine ⟨h.chunkCommitted hstage, rfl, fun key => .inl ?_⟩
      rw [Batch.inserted_of_fresh (fresh_insertRows rest), append_nil, Batch.inserted, hstage]
    · cases hstep
  | refuse =>
    simp only [Batch.step] at hstep
    split at hstep
    · rename_i chunk todo inserted rest hstage
      cases hstep
      exact ⟨(h.refused hstage).mono _, .of_fresh (fun _ _ _ _ h => by cases h) rfl⟩
    · cases hstep
  | add =>
    simp only [Batch.step] at hstep
    split at hstep
    · rename_i row todo rest hstage
      split at hstep
      · rename_i hstored
        cases hstep
        refine ⟨h.settled hstage (by dsimp only; omega) ?_,
          .of_fresh (fresh_insertOneAtATime _ _) rfl⟩
        rw [append_nil]
        exact hstored
      · rename_i hstored
        split at hstep
        · cases hstep
        · rename_i hheld
          cases hstep
          refine ⟨h.settled hstage (by dsimp only; omega) ?_, rfl, fun key => ?_⟩
          · simp
          · rw [Batch.inserted_of_fresh (fresh_insertOneAtATime _ _), append_nil]
            by_cases hsame : key = rowKey row
            · subst hsame
              exact .inr ⟨by simp, hstored, hheld⟩
            · left
              simp [count_cons_of_ne (Ne.symm hsame)]
    · cases hstep
  | refuseRow =>
    simp only [Batch.step] at hstep
    split at hstep
    · rename_i row todo rest hstage
      cases hstep
      have hstored : rowKey row ∈ stored.map rowKey := hquiet row (by rw [hstage]; rfl)
      refine ⟨h.settled hstage (by dsimp only; omega) ?_,
        .of_fresh (fresh_insertOneAtATime _ _) rfl⟩
      rw [append_nil]
      exact hstored
    · cases hstep
  | fail =>
    simp only [Batch.step] at hstep
    split at hstep
    · cases hstep
      exact ⟨.failed hquiet, .of_fresh (fun _ _ _ _ h => by cases h) rfl⟩
    · cases hstep
      exact ⟨.failed hquiet, .of_fresh (fun _ _ _ _ h => by cases h) rfl⟩
    · cases hstep

end

/-! ### Every run -/

/-- What every step keeps. -/
structure Imports.Sound (imports : Imports) : Prop where
  sound : ∀ batch ∈ imports.batches, batch.Sound imports.stored
  unique : ∀ key, (imports.stored.map rowKey).count key + (heldKeys imports.batches).count key ≤ 1
  accepted : (imports.batches.map (·.result.accepted)).sum = imports.stored.length

theorem count_heldKeys (batches : List Batch) (key : EventKey) : (heldKeys batches).count key =
      (batches.map fun batch => (batch.inserted.map rowKey).count key).sum := by
  rw [heldKeys, count_flatMap]
  rfl

variable {imports : Imports}

theorem Imports.Sound.ingest (h : imports.Sound) (call : Call) :
    Imports.Sound { imports with batches := imports.batches ++ [ingestExternalEvents call] } := by
  obtain ⟨hsound, hinserted, haccepted⟩ := sound_ingest imports.stored call
  refine ⟨?_, fun key => ?_, ?_⟩
  · intro batch hbatch
    rcases mem_append.mp hbatch with hbatch | hbatch
    · exact h.sound batch hbatch
    · rw [mem_singleton.mp hbatch]
      exact hsound
  · have hheld : heldKeys (imports.batches ++ [ingestExternalEvents call]) =
        heldKeys imports.batches := by
      simp [heldKeys, hinserted]
    rw [hheld]
    exact h.unique key
  · simp [haccepted, h.accepted]

theorem Imports.Sound.move (h : imports.Sound) {i : ℕ} {move : Move}
    (hquiet : Quiet imports (.move i move)) {next : Batch} {committed : List UsageLog}
    (hbatch : imports.batches[i]? = some batch)
    (hstep : batch.step imports.stored (heldKeys imports.batches) move = some (next, committed)) :
    Imports.Sound
      { stored := imports.stored ++ committed, batches := imports.batches.set i next } := by
  have hmem : batch ∈ imports.batches := mem_of_getElem? hbatch
  have hone : batch.Quiet imports.stored move := by
    cases move with
    | refuseRow => exact hquiet batch hbatch
    | fail => exact hquiet batch hbatch
    | _ => trivial
  obtain ⟨hsound, haccepted, hkeys⟩ := (h.sound batch hmem).step hone hstep
  refine ⟨?_, fun key => ?_, ?_⟩
  · intro other hother
    rcases mem_or_eq_of_mem_set hother with hother | rfl
    · exact (h.sound other hother).mono committed
    · exact hsound
  · have hset := Tally.sum_set (fun batch : Batch => (batch.inserted.map rowKey).count key) hbatch next
    have hunique := h.unique key
    have hnew := hkeys key
    simp only [map_append, count_append] at hnew ⊢
    rw [count_heldKeys] at hunique ⊢
    rcases hnew with hnew | ⟨hnew, hstored, hheld⟩
    · omega
    · have hzero : (imports.stored.map rowKey).count key = 0 := count_eq_zero_of_not_mem hstored
      have hnone : (heldKeys imports.batches).count key = 0 := count_eq_zero_of_not_mem hheld
      rw [count_heldKeys] at hnone
      omega
  · have hset := Tally.sum_set (fun batch : Batch => batch.result.accepted) hbatch next
    have hbefore := h.accepted
    simp only [length_append]
    omega

theorem Imports.Sound.step {next : Imports} (h : imports.Sound) {act : Act}
    (hquiet : Quiet imports act) (hstep : imports.step act = some next) : next.Sound := by
  cases act with
  | ingest call =>
    cases hstep
    exact h.ingest call
  | move i move =>
    simp only [Imports.step, Option.bind_eq_bind, Option.bind_eq_some_iff] at hstep
    obtain ⟨batch, hbatch, ⟨moved, committed⟩, hmoved, hnext⟩ := hstep
    cases hnext
    exact h.move hquiet hbatch hmoved

def Imports.Initial (imports : Imports) : Prop := imports = {}

/-- **A run of quiet steps is truthful.** -/
theorem truthful_of_quiet {imports : Imports}
    (h : Reached Imports.Initial Imports.step Quiet imports) : Truthful imports := by
  have hsound : imports.Sound := h.keeps
    (fun imports hinitial => hinitial ▸
      ⟨List.forall_mem_nil _, fun _ => Nat.zero_le _, rfl⟩)
    (fun imports act next hsound hquiet hstep => hsound.step hquiet hstep)
  have hreturned : ∀ batch : Batch, batch.Returned → batch.stage ≠ .raised := by
    intro batch hstage hraised
    rw [hstage] at hraised
    cases hraised
  refine ⟨?_, ?_, ?_, ?_⟩
  · intro batch hbatch hstage
    have hcounted := (hsound.sound batch hbatch).counted (hreturned batch hstage)
    rw [hstage] at hcounted
    exact hcounted
  · refine List.nodup_iff_count_le_one.mpr fun key => ?_
    exact (Nat.le_add_right _ _).trans (hsound.unique key)
  · rw [← hsound.accepted]
    congr 1
    refine List.map_congr_left fun batch hbatch => ?_
    rw [Batch.reported]
    split
    · rename_i hstage
      exact ((hsound.sound batch hbatch).raised hstage).symm
    · rfl
  · intro batch hbatch hstage event hevent user huser
    have hkept := (hsound.sound batch hbatch).kept (hreturned batch hstage) event hevent user huser
    rw [hstage] at hkept
    obtain ⟨row, hrow, hkey⟩ := List.mem_map.mp hkept
    exact ⟨row, by simpa [Stage.left] using hrow, hkey⟩

/-! ### A row refused -/

theorem distinctStarts_nil : Pricing.DistinctStarts [] := by
  intro _ h
  cases h

def noPrices : PriceLists where
  overrides := []
  modelPricing := []
  defaultPricingEnabled := false
  resolveDefault _ _ _ := none
  distinctStarts := distinctStarts_nil
  distinctVersions := by intro _ h; cases h

def sampleEvent : ExternalUsageEvent where
  sourceEventId := ['e']
  timestamp := 0
  provider := ['p']
  model := ['m']
  provider_ne := List.cons_ne_nil _ _

def oneEvent : Call where
  source := ['s']
  userId := none
  events := [sampleEvent]
  apiKey := some ⟨1, some ['u'], true, none⟩
  isMasterKey := false
  rejectUserMismatch := false
  users := [['u']]
  workspaceId := 1
  organizationId := none
  prices := noPrices

def oneRow : UsageLog where
  workspaceId := 1
  apiKeyId := some 1
  userId := ['u']
  timestamp := 0
  model := ['m']
  provider := ['p']
  source := ['s']
  sourceEventId := ['e']
  sourceLabel := none
  promptTokens := 0
  completionTokens := 0
  totalTokens := 0
  cacheReadTokens := 0
  cacheWriteTokens := 0
  cacheWrite1hTokens := 0
  reasoningTokens := 0
  cacheTokensInPrompt := false
  billingMeters := none
  pricingBreakdown := none
  cost := none
  status := .success
  latencyMs := none

theorem ingest_oneEvent : ingestExternalEvents oneEvent =
    { call := oneEvent, stage := .inserting [oneRow] [oneRow] [] [] } := rfl

theorem step_ingest_oneEvent : ({} : Imports).step (.ingest oneEvent) =
    some ⟨[], [⟨oneEvent, {}, .inserting [oneRow] [oneRow] [] []⟩]⟩ := by
  rw [Imports.step, ingest_oneEvent]
  rfl

def twoEvents : Call := { oneEvent with events := [sampleEvent, sampleEvent] }

/-- It is of two imports at once, one of which repeats the event, and finds its row stored. -/
theorem truthful_of_quiet_twoEvents : Truthful ⟨[oneRow],
    [⟨oneEvent, { accepted := 1 }, .returned⟩, ⟨twoEvents, { duplicate := 2 }, .returned⟩]⟩ := by
  let first (stage : Stage) (accepted : ℕ) : Batch := ⟨oneEvent, { accepted }, stage⟩
  let second (stage : Stage) (duplicate : ℕ) : Batch := ⟨twoEvents, { duplicate }, stage⟩
  have htwo : Imports.step ⟨[], [first (.inserting [oneRow] [oneRow] [] []) 0]⟩ (.ingest twoEvents) =
      some ⟨[], [first (.inserting [oneRow] [oneRow] [] []) 0,
        second (.inserting [oneRow] [oneRow] [] []) 1]⟩ := by
    rw [Imports.step, show ingestExternalEvents twoEvents = second _ 1 from rfl]
    rfl
  have hstart : Reached Imports.Initial Imports.step Quiet {} := .start rfl
  have hboth := (hstart.step (by exact trivial) step_ingest_oneEvent).step (by exact trivial) htwo
  have hstored := (hboth.step (by exact trivial)
    (show Imports.step _ (.move 0 .insert) = some _ from rfl)).step (by exact trivial)
    (show Imports.step _ (.move 0 .commit) = some _ from rfl)
  have hrefused := hstored.step (by exact trivial)
    (show Imports.step _ (.move 1 .refuse) = some _ from rfl)
  refine truthful_of_quiet (hrefused.step ?_ (show Imports.step _ (.move 1 .refuseRow) = some _ from rfl))
  rintro _ ⟨⟩ _ ⟨⟩
  exact List.mem_singleton_self _

/-- The key is deleted once the event is priced: its row is refused, and the event a duplicate of
none. -/
theorem refused_not_truthful : ∃ imports,
    Reached Imports.Initial Imports.step (fun _ _ => True) imports ∧ ¬ Truthful imports := by
  have hrefuse : Imports.step ⟨[], [⟨oneEvent, {}, .inserting [oneRow] [oneRow] [] []⟩]⟩
      (.move 0 .refuse) = some ⟨[], [⟨oneEvent, {}, .salvaging [oneRow] []⟩]⟩ := rfl
  have hrow : Imports.step ⟨[], [⟨oneEvent, {}, .salvaging [oneRow] []⟩]⟩ (.move 0 .refuseRow) =
      some ⟨[], [⟨oneEvent, { duplicate := 1 }, .returned⟩]⟩ := rfl
  have hstart : Reached Imports.Initial Imports.step (fun _ _ => True) {} := .start rfl
  refine ⟨_, ((hstart.step trivial step_ingest_oneEvent).step trivial hrefuse).step trivial hrow,
    fun h => ?_⟩
  obtain ⟨row, hstored, -⟩ :=
    h.stored _ List.mem_cons_self rfl sampleEvent List.mem_cons_self ['u'] rfl
  cases hstored

end Otari.Usage

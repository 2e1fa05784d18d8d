import Otari.Support.Cell
import Otari.Support.Threads

/-!
# Inference — Idempotency — a request's claim on its key

`services/inference/_idempotency.py` over `repositories/inference/idempotency_repository.py`, on the
row of one scope and key.  Each block of the unit of work is a transaction of the database, each
statement of it one act, and the acts of any number of requests interleave.

A block the database refuses rolls back and is one that did not run; only blocks that commit are
here.  `history` keeps what each committed block changed, newest first.
-/

namespace Otari.Inference
open Threads

abbrev Instant := ℤ

/-- `claim_token`, a fresh uuid: numbered in the order they are drawn. -/
abbrev Token := ℕ

abbrev Headers := List (String × String)

/-! ### Data -/

inductive IdempotencyState where
  | inProgress
  | completed
deriving DecidableEq

/-- The row of the key.  Its scope and key are the machine's. -/
structure IdempotencyRecord where
  requestHash : String
  claimToken : Token
  state : IdempotencyState
  userId : String
  apiKeyId : Option String
  statusCode : Option ℕ
  responseBody : Option String
  responseHeaders : Option Headers
  createdAt : Instant
  lockedUntil : Instant
  expiresAt : Instant
deriving DecidableEq

structure IdempotentRequest where
  requestHash : String
  userId : String
  apiKeyId : Option String
deriving DecidableEq

structure StoredResponse where
  statusCode : ℕ
  body : String
  headers : Headers
  /-- An HTTP status is never 0. -/
  status_ne_zero : statusCode ≠ 0
deriving DecidableEq

structure GatewayConfig where
  idempotencyLeaseSec : ℤ
  idempotencyRetentionSec : ℤ
  /-- `OTARI_SECRET_KEY`, the keys in order. -/
  secretKeys : List String
deriving DecidableEq

/-- The box the deployment's keys make, from a library outside the repository.  Encryption draws a
nonce; what a box opens is what was put in. -/
structure MultiFernet where
  validKey : String → Bool
  encrypt : List String → ℕ → String → String
  decrypt : List String → String → Option String
  authentic : ∀ keys keys' nonce body body',
    decrypt keys' (encrypt keys nonce body) = some body' → body' = body

inductive Admission where
  | claimed (token : Token)
  | replay (response : StoredResponse)
  | keyReused
  | stillInFlight
  | unknownCaller
  | blockedCaller
deriving DecidableEq

/-! ### The secret box -/

/-- `get_secret_box`: whether there is a box, of at least one key, each valid. -/
def MultiFernet.available (box : MultiFernet) (keys : List String) : Bool :=
  keys ≠ [] ∧ keys.all box.validKey

def encryptSecret (box : MultiFernet) (keys : List String) (nonce : ℕ) (plaintext : String) :
    Option String :=
  if box.available keys then some (box.encrypt keys nonce plaintext) else none

def decryptSecret (box : MultiFernet) (keys : List String) (ciphertext : String) : Option String :=
  if box.available keys then box.decrypt keys ciphertext else none

/-- `status_code or 200`. -/
def statusOr200 : Option ℕ → ℕ
  | none => 200
  | some 0 => 200
  | some code => code

theorem statusOr200_ne_zero (code : Option ℕ) : statusOr200 code ≠ 0 := by
  rcases code with _ | _ | n
  · decide
  · decide
  · exact Nat.succ_ne_zero n

/-- `_replay`: the stored response, or none when no configured key can decrypt it. -/
def replay (box : MultiFernet) (config : GatewayConfig) (record : IdempotencyRecord) :
    Option StoredResponse :=
  match record.responseBody with
  | none => none
  | some ciphertext =>
    (decryptSecret box config.secretKeys ciphertext).map fun body =>
      { statusCode := statusOr200 record.statusCode
        body := body
        headers := record.responseHeaders.getD []
        status_ne_zero := statusOr200_ne_zero _ }

/-! ### The store -/

/-- One block of the unit of work, as the service opens them. -/
inductive Block where
  | admitRequest (config : GatewayConfig) (request : IdempotentRequest)
  | complete (config : GatewayConfig) (token : Token) (response : StoredResponse) (nonce : ℕ)
  | renew (config : GatewayConfig) (token : Token)
  | release (token : Token)
  | sweep
deriving DecidableEq

/-- What a committed block made of the row. -/
structure Change where
  at_ : Instant
  block : Block
  before : Option IdempotencyRecord
  after : Option IdempotencyRecord
deriving DecidableEq

structure Store where
  clock : Instant
  row : Cell (Option IdempotencyRecord)
  /-- The users not deleted, and whether each is blocked. -/
  callers : String → Option Bool
  nextToken : Token
  history : List Change

abbrev Run := Prog Unit Store

/-! ### The repository's statements -/

def getDatabaseTime : Run Instant :=
  .read () fun _ s => s.clock

def getCaller (userId : String) : Run (Option Bool) :=
  .read () fun _ s => s.callers userId

def uuid4 : Run Token :=
  .one () fun _ s => some (s.nextToken, { s with nextToken := s.nextToken + 1 })

/-- `INSERT … ON CONFLICT DO NOTHING`: waits for a writer of the key. -/
def insertClaim (values : IdempotencyRecord) : Run Bool :=
  .one () fun t s =>
    if s.row.heldByOther t then none
    else match s.row.visible t with
      | none => some (true, { s with row := s.row.write t (some values) })
      | some _ => some (false, s)

def find : Run (Option IdempotencyRecord) :=
  .read () fun t s => s.row.visible t

/-- `UPDATE … WHERE`, and whether the row matched. -/
def updateRow (p : IdempotencyRecord → Bool)
    (f : IdempotencyRecord → Option IdempotencyRecord) : Run Bool :=
  .one () fun t s =>
    (s.row.updateWhere t (·.any p) (·.bind f)).map fun r => (r.1, { s with row := r.2 })

/-- Replace the claim this caller saw, while it is still as seen. -/
def takeOver (seen : IdempotencyRecord) (now : Instant) (values : IdempotencyRecord) : Run Bool :=
  updateRow (fun row => row.claimToken = seen.claimToken ∧ row.state = seen.state ∧
      (seen.state = .inProgress → row.lockedUntil ≤ now))
    fun _ => some values

def holds (claimToken : Token) (row : IdempotencyRecord) : Bool :=
  row.claimToken = claimToken ∧ row.state = .inProgress

def extendLease (claimToken : Token) (lockedUntil : Instant) : Run Bool :=
  updateRow (holds claimToken) fun row => some { row with lockedUntil := lockedUntil }

def completeClaim (claimToken : Token) (statusCode : ℕ) (responseBody : String)
    (responseHeaders : Headers) (expiresAt : Instant) : Run Bool :=
  updateRow (holds claimToken) fun row =>
    some { row with
      state := .completed
      statusCode := some statusCode
      responseBody := some responseBody
      responseHeaders := some responseHeaders
      expiresAt := expiresAt }

def releaseClaim (claimToken : Token) : Run Bool :=
  updateRow (holds claimToken) fun _ => none

/-- A row whose retention has passed and whose claim is no longer live. -/
def expired (now : Instant) (row : IdempotencyRecord) : Bool :=
  row.expiresAt ≤ now ∧ (row.state = .completed ∨ row.lockedUntil ≤ now)

/-- `DELETE … IN (SELECT … FOR UPDATE SKIP LOCKED)`: whether this row went.  It is passed over while
another holds it, and unless it is `reached`, among the oldest of the batch. -/
def deleteExpired (now : Instant) (reached : Bool) : Run Bool :=
  .one () fun t s =>
    if !s.row.heldByOther t ∧ reached ∧ (s.row.visible t).any (expired now) then
      some (true, { s with row := s.row.write t none })
    else some (false, s)

/-- The block ends: what it wrote is committed. -/
def commit (block : Block) : Run Unit :=
  .one () fun t s =>
    if s.row.heldBy t then
      some ((), { s with
        row := s.row.commit t
        history := ⟨s.clock, block, s.row.committed, s.row.latest⟩ :: s.history })
    else some ((), s)

/-! ### The service -/

def claimValues (config : GatewayConfig) (request : IdempotentRequest) (token : Token)
    (now : Instant) : IdempotencyRecord where
  requestHash := request.requestHash
  claimToken := token
  state := .inProgress
  userId := request.userId
  apiKeyId := request.apiKeyId
  statusCode := none
  responseBody := none
  responseHeaders := none
  createdAt := now
  lockedUntil := now + config.idempotencyLeaseSec
  expiresAt := now + max config.idempotencyLeaseSec config.idempotencyRetentionSec

/-- A running claim is stale once its lease lapses, a stored response once its retention does. -/
def staleAt (record : IdempotencyRecord) : Instant :=
  if record.state = .inProgress then record.lockedUntil else record.expiresAt

/-- One attempt: an admission, or none to look again straight away. -/
def tryAdmit (box : MultiFernet) (config : GatewayConfig) (request : IdempotentRequest) :
    Run (Option Admission) := do
  let now ← getDatabaseTime
  let token ← uuid4
  let claim := claimValues config request token now
  if ← insertClaim claim then
    return some (.claimed token)
  match ← find with
  | none => return none
  | some record =>
    if staleAt record ≤ now then
      let taken ← takeOver record now claim
      return if taken then some (.claimed token) else none
    else if record.requestHash ≠ request.requestHash then return some .keyReused
    else if record.state = .completed then
      match replay box config record with
      | some response => return some (.replay response)
      | none =>
        let taken ← takeOver record now claim
        return if taken then some (.claimed token) else none
    else return some .stillInFlight

/-- The attempts left, each a block of its own. -/
def admitLoop (box : MultiFernet) (config : GatewayConfig) (request : IdempotentRequest) :
    ℕ → Run Admission
  | 0 => return .stillInFlight
  | attempts + 1 => do
    let outcome ← tryAdmit box config request
    commit (.admitRequest config request)
    match outcome with
    | some admission => return admission
    | none => admitLoop box config request attempts

/-- `_CHANGES_BEFORE_CONFLICT`. -/
def changesBeforeConflict : ℕ := 3

/-- Claim the key, or answer with what the request already holding it produced. -/
def admitRequest (box : MultiFernet) (config : GatewayConfig) (request : IdempotentRequest) :
    Run Admission := do
  match ← getCaller request.userId with
  | none => return .unknownCaller
  | some true => return .blockedCaller
  | some false => admitLoop box config request changesBeforeConflict

def release (token : Token) : Run Unit := do
  let _ ← releaseClaim token
  commit (.release token)

/-- `_MAX_STORED_BODY_BYTES`. -/
def maxStoredBodyBytes : ℕ := 8 * 1024 * 1024

/-- Store the response, encrypted, for a retry to be given.  One that cannot be stored gives the key
back. -/
def complete (box : MultiFernet) (config : GatewayConfig) (token : Token)
    (response : StoredResponse) (nonce : ℕ) : Run Bool := do
  if maxStoredBodyBytes < response.body.utf8ByteSize then
    release token
    return false
  match encryptSecret box config.secretKeys nonce response.body with
  | none =>
    release token
    return false
  | some ciphertext =>
    let now ← getDatabaseTime
    let stored ← completeClaim token response.statusCode ciphertext response.headers
      (now + config.idempotencyRetentionSec)
    commit (.complete config token response nonce)
    return stored

def renew (config : GatewayConfig) (token : Token) : Run Bool := do
  let now ← getDatabaseTime
  let extended ← extendLease token (now + config.idempotencyLeaseSec)
  commit (.renew config token)
  return extended

/-- Delete every record whose retention has passed, a batch at a time: for each batch, whether this
row is among its oldest.  The answer counts this row only. -/
def sweep : List Bool → Run ℕ
  | [] => return 0
  | reached :: batches => do
    let now ← getDatabaseTime
    let deleted ← deleteExpired now reached
    commit .sweep
    let rest ← sweep batches
    return (if deleted then 1 else 0) + rest

/-! ### The machine -/

inductive Call where
  | admitRequest (config : GatewayConfig) (request : IdempotentRequest)
  | complete (config : GatewayConfig) (token : Token) (response : StoredResponse) (nonce : ℕ)
  | renew (config : GatewayConfig) (token : Token)
  | release (token : Token)
  | sweep (batches : List Bool)
deriving DecidableEq

inductive Answer where
  | admission (admission : Admission)
  | stored (stored : Bool)
  | renewed (held : Bool)
  | released
  | swept (count : ℕ)
deriving DecidableEq

/-- What happens beside the calls: time passes, and users come, go and are blocked. -/
inductive Elsewhere where
  | clock (now : Instant)
  | callers (callers : String → Option Bool)

def program (box : MultiFernet) : Call → Run Answer
  | .admitRequest config request => do return .admission (← admitRequest box config request)
  | .complete config token response nonce => do
    return .stored (← complete box config token response nonce)
  | .renew config token => do return .renewed (← renew config token)
  | .release token => do
    release token
    return .released
  | .sweep batches => do return .swept (← sweep batches)

def system (box : MultiFernet) : System Call Elsewhere Unit Store Answer where
  program := program box
  env
    | .clock now, s => if s.clock ≤ now then some { s with clock := now } else none
    | .callers callers, s => some { s with callers := callers }
  start s := s.row = ⟨none, none⟩ ∧ s.history = []

end Otari.Inference

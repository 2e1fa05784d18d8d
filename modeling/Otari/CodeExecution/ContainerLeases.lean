import Otari.Support.Select
import Otari.Support.Threads

/-!
# CodeExecution — ContainerLeases — one sandbox, leased across requests

`services/code_execution/containers.py` over `repositories/code_execution`, and the two callers that
open a sandbox on a lease: a completion, which walks its candidates through `SandboxBackend`, and a
direct run (`executeCode`).  Beside them runs the sweep.

Each statement is one act.  A container id the gateway mints is a number, in the order they are
minted; an id of any other form names no row.  `created_at` and `last_used_at` are written and never
read, so they are left out.
-/

namespace Otari.Containers
open Threads

abbrev Instant := ℤ

/-! ### Rows and leases -/

/-- Whom a lease is bound to: the user and workspace billed, and the provider that made it. -/
structure Owner where
  userId : ℕ
  workspaceId : ℕ
  provider : ℕ
deriving DecidableEq

/-- A row of `sandbox_containers`.  Beside `in_use_until` stands the claim that set it. -/
structure SandboxContainerRow where
  owner : Owner
  providerSessionId : ℕ
  expiresAt : Instant
  hardExpiresAt : Instant
  inUse : Option (Instant × ℕ) := none
deriving DecidableEq

def SandboxContainerRow.expired (row : SandboxContainerRow) (now : Instant) : Bool :=
  decide (row.expiresAt ≤ now ∨ row.hardExpiresAt ≤ now)

/-- Unclaimed, or claimed by a request whose claim has lapsed. -/
def SandboxContainerRow.claimable (row : SandboxContainerRow) (now : Instant) : Bool :=
  row.inUse.all fun use => decide (use.1 ≤ now)

structure ContainerLease where
  containerId : ℕ
  providerSessionId : ℕ
  expiresAt : Instant
  hardExpiresAt : Instant
deriving DecidableEq

/-- `CONTAINER_CLAIM_TTL_S`. -/
def containerClaimTtlS : Instant := 3600

/-! ### What a run leaves behind -/

/-- A claim a request took, when it lapses, and whether the request has given it back. -/
structure Claim where
  request : ℕ
  container : ℕ
  lapses : Instant
  givenBack : Bool := false
deriving DecidableEq

/-- A lease resumed: by whom, at the time the request read, and the row it read. -/
structure Resume where
  owner : Owner
  container : ℕ
  now : Instant
  row : SandboxContainerRow

/-- A use of a resumed sandbox, and whether its claim was held. -/
structure Use where
  claim : ℕ
  held : Bool

/-- A claim a record or a release ended, and the claim of the request that made it. -/
structure Ending where
  claim : ℕ
  endedBy : Option ℕ

/-- A lease taken: the row as it was inserted. -/
structure Taking where
  container : ℕ
  owner : Owner
  hardExpiresAt : Instant
deriving DecidableEq

/-- The table and the clock, the request that minted each id, and what has happened. -/
structure ContainerStore where
  rows : ℕ → Option SandboxContainerRow := fun _ => none
  clock : Instant := 0
  minted : List ℕ := []
  claims : List Claim := []
  resumes : List Resume := []
  uses : List Use := []
  endings : List Ending := []
  takings : List Taking := []

/-- The claim is held: neither given back nor lapsed. -/
def ContainerStore.live (s : ContainerStore) (claim : ℕ) : Bool :=
  s.claims[claim]?.any fun c => !c.givenBack && decide (s.clock < c.lapses)

inductive Label where
  | now
  | read
  | drop
  | claim
  | refuse (claim : Option ℕ)
  | openFails (claim : Option ℕ) (gone : Bool)
  | opens (claim : Option ℕ)
  | use (claim : Option ℕ)
  | give (claim : Option ℕ)

namespace ContainerStore
variable (s : ContainerStore)

def setRow (container : ℕ) (row : Option SandboxContainerRow) : ContainerStore :=
  { s with rows := Function.update s.rows container row }

def giveBack : Option ℕ → ContainerStore
  | none => s
  | some claim => { s with claims := s.claims.modify claim fun c => { c with givenBack := true } }

def endClaim (row : SandboxContainerRow) (endedBy : Option ℕ) : ContainerStore :=
  match row.inUse with
  | none => s
  | some use => { s with endings := ⟨use.2, endedBy⟩ :: s.endings }

def noteUse : Option ℕ → ContainerStore
  | none => s
  | some claim => { s with uses := ⟨claim, s.live claim⟩ :: s.uses }

end ContainerStore

/-! ### The repository -/

abbrev Act (α : Type) := Prog Label ContainerStore α

def readNow : Act Instant := .read .now fun _ s => s.clock

def getContainerRow (container : ℕ) : Act (Option SandboxContainerRow) :=
  .read .read fun _ s => s.rows container

def deleteContainerRows (containers : List ℕ) : Act Unit :=
  .one .drop fun _ s => some ((), { s with
    rows := fun container => if container ∈ containers then none else s.rows container })

/-- `claim_container_row`, after the row was read: the claim taken, if the update found the row. -/
def claimContainerRow (owner : Owner) (container : ℕ) (now : Instant)
    (row : SandboxContainerRow) : Act (Option ℕ) :=
  .one .claim fun t s =>
    match s.rows container with
    | none => some (none, s)
    | some current =>
      if current.claimable now then
        let lapses := now + containerClaimTtlS
        let claim := s.claims.length
        some (some claim, { s with
          rows := Function.update s.rows container
            (some { current with inUse := some (lapses, claim) })
          claims := s.claims ++ [{ request := t, container, lapses }]
          resumes := ⟨owner, container, now, row⟩ :: s.resumes })
      else some (none, s)

/-- The write of `upsert_container_row`, after it has selected `existing`.  An insert over a row,
and an update of none, roll the block back; an update writes only the columns that changed. -/
def writeLease (s : ContainerStore) (owner : Owner) (claim : Option ℕ) (lease : ContainerLease)
    (existing : Option SandboxContainerRow) : ContainerStore :=
  let written := match existing, s.rows lease.containerId with
    | none, none =>
      { s.setRow lease.containerId (some
          { owner, providerSessionId := lease.providerSessionId, expiresAt := lease.expiresAt,
            hardExpiresAt := lease.hardExpiresAt }) with
        takings := ⟨lease.containerId, owner, lease.hardExpiresAt⟩ :: s.takings }
    | some selected, some row =>
      let refreshed := { row with
        providerSessionId := lease.providerSessionId
        expiresAt := lease.expiresAt }
      if selected.inUse.isSome then
        (s.endClaim row claim).setRow lease.containerId (some { refreshed with inUse := none })
      else s.setRow lease.containerId (some refreshed)
    | _, _ => s
  written.giveBack claim

/-- `expired_container_ids`. -/
def expiredContainerIds (s : ContainerStore) (now : Instant) (batchSize : ℕ) : List ℕ :=
  let expired := (List.range s.minted.length).filterMap fun container =>
    (s.rows container).bind fun row =>
      if row.expired now then some (row.expiresAt, container) else none
  ((Select.orderBy Prod.fst expired).map Prod.snd).take batchSize

/-! ### The registry -/

/-- A resumed lease, and the claim it was resumed under. -/
structure Held where
  lease : ContainerLease
  claim : ℕ

/-- The caller a registry is scoped to, and its two lifetimes. -/
structure Registry where
  owner : Owner
  idleTtlS : ℕ
  maxLifetimeS : ℕ

inductive ResolveError where
  | notFound
  | busy

def leaseFromRow (container : ℕ) (row : SandboxContainerRow) : ContainerLease where
  containerId := container
  providerSessionId := row.providerSessionId
  expiresAt := row.expiresAt
  hardExpiresAt := row.hardExpiresAt

namespace Registry
variable (registry : Registry)

def resolve (container : ℕ) : Act (Except ResolveError Held) := do
  let now ← readNow
  match ← getContainerRow container with
  | none => return .error .notFound
  | some row =>
    if row.expired now then
      deleteContainerRows [container]
      return .error .notFound
    else if row.owner ≠ registry.owner then
      return .error .notFound
    else
      match ← claimContainerRow registry.owner container now row with
      | none => return .error .busy
      | some claim => return .ok ⟨leaseFromRow container row, claim⟩

/-- The lease a session is held under, with both clocks set. -/
def lease (container providerSessionId : ℕ) (resumed : Option ContainerLease) (now : Instant) :
    ContainerLease :=
  let hard := match resumed with
    | some lease => lease.hardExpiresAt
    | none => now + registry.maxLifetimeS
  ⟨container, providerSessionId, min (now + registry.idleTtlS) hard, hard⟩

def record (claim : Option ℕ) (lease : ContainerLease) : Act Unit := do
  let existing ← .read (.give claim) fun _ s => s.rows lease.containerId
  .one (.give claim) fun _ s => some ((), writeLease s registry.owner claim lease existing)

end Registry

def release (held : Held) : Act Unit :=
  .one (.give (some held.claim)) fun _ s =>
    let ended := match s.rows held.lease.containerId with
      | none => s
      | some row => (s.endClaim row (some held.claim)).setRow held.lease.containerId
          (some { row with inUse := none })
    some ((), ended.giveBack (some held.claim))

def forget (held : Held) : Act Unit :=
  .one (.give (some held.claim)) fun _ s =>
    some ((), (s.setRow held.lease.containerId none).giveBack (some held.claim))

/-! ### The sandbox backend -/

/-- What asking the provider for a session comes to: a session, held past the request or not; no
answer; or the session resumed is gone. -/
inductive Opening where
  | opens (providerSessionId : ℕ) (holds : Bool)
  | unreachable
  | gone

/-- One attempt on a sandbox: its opening, how often it uses the session, and whether the seed it
starts with is taken. -/
structure Candidate where
  opening : Opening
  uses : ℕ
  seeds : Bool := true

/-- The session is open: its lease, where the session will be held. -/
def openSession (registry : Registry) (held : Option Held) (providerSessionId : ℕ) (holds : Bool) :
    Act (Option ContainerLease) :=
  .one (.opens (held.map (·.claim))) fun t s =>
    let container := match held with
      | some held => held.lease.containerId
      | none => s.minted.length
    let lease := registry.lease container providerSessionId (held.map (·.lease)) s.clock
    let used := s.noteUse (held.map (·.claim))
    some (if holds then some lease else none,
      if held.isSome then used else { used with minted := s.minted ++ [t] })

def useSandbox (held : Option Held) : ℕ → Act Unit
  | 0 => return ()
  | n + 1 => do
    .one (.use (held.map (·.claim))) fun _ s => some ((), s.noteUse (held.map (·.claim)))
    useSandbox held n

/-- `SandboxBackend.__aexit__`. -/
def leave (registry : Registry) (held : Option Held) (lease : Option ContainerLease) : Act Unit :=
  match lease, held with
  | some lease, _ => registry.record (held.map (·.claim)) lease
  | none, some held => release held
  | none, none => return ()

/-! ### Requests -/

/-- A request that asks for a container: the id it resumes, or none for `auto`. -/
structure Request where
  registry : Registry
  container : Option ℕ

/-- The claim a request holds on the sandbox it names, for all its candidates. -/
def Request.claimContainer (request : Request) : Act (Except ResolveError (Option Held)) :=
  match request.container with
  | none => return .ok none
  | some container => do
    let outcome ← request.registry.resolve container
    return outcome.map some

/-- `forget_container`: the provider no longer has the session that was resumed. -/
def forgetContainer (held : Option Held) : Act Unit :=
  match held with
  | some held => forget held
  | none => return ()

/-- One candidate of a completion, and whether the walk may go on to the next. -/
def runCandidate (registry : Registry) (held : Option Held) (candidate : Candidate) : Act Bool :=
  match candidate.opening with
  | .unreachable => do
    .one (.openFails (held.map (·.claim)) false) fun _ s => some ((), s)
    return false
  | .gone => do
    .one (.openFails (held.map (·.claim)) true) fun _ s => some ((), s)
    forgetContainer held
    return false
  | .opens providerSessionId holds => do
    let lease ← openSession registry held providerSessionId holds
    useSandbox held candidate.uses
    -- a refused seed discards the session, and with it the lease
    leave registry held (if candidate.seeds then lease else none)
    return candidate.seeds

def walkCandidates (registry : Registry) (held : Option Held) : List Candidate → Act Unit
  | [] => return ()
  | candidate :: candidates => do
    if ← runCandidate registry held candidate then walkCandidates registry held candidates
    else return ()

/-- A completion: claimed at admission, refused later in it or not, and then its candidates, of
which there is at least one. -/
def complete (request : Request) (refused : Bool) (first : Candidate) (others : List Candidate) :
    Act Unit := do
  match ← request.claimContainer with
  | .error _ => return ()
  | .ok held =>
    if refused then .one (.refuse (held.map (·.claim))) fun _ s => some ((), s)
    else walkCandidates request.registry held (first :: others)

/-- `give_back_claim` of a direct run. -/
def giveBackClaim (held : Option Held) : Act Unit :=
  match held with
  | some held => release held
  | none => return ()

/-- `execute_code`: one attempt, whose every failure gives the claim back. -/
def executeCode (request : Request) (refused : Bool) (candidate : Candidate) (raises : Bool) :
    Act Unit := do
  match ← request.claimContainer with
  | .error _ => return ()
  | .ok held =>
    if refused then giveBackClaim held
    else
      match candidate.opening with
      | .unreachable => giveBackClaim held
      | .gone => forgetContainer held
      | .opens providerSessionId holds =>
        let lease ← openSession request.registry held providerSessionId holds
        useSandbox held candidate.uses
        leave request.registry held (if candidate.seeds then lease else none)
        if raises || !candidate.seeds then giveBackClaim held else return ()

/-- `sweep_expired_containers`. -/
def sweepExpiredContainers (batchSize : ℕ) : Act Unit := do
  let now ← readNow
  let ids ← .read .read fun _ s => expiredContainerIds s now batchSize
  if ids.isEmpty then return () else deleteContainerRows ids

/-! ### The system -/

inductive ContainerOp where
  | complete (request : Request) (refused : Bool) (first : Candidate) (others : List Candidate)
  | execute (request : Request) (refused : Bool) (candidate : Candidate) (raises : Bool)
  | sweep (batchSize : ℕ)

inductive Elsewhere where
  | tick (seconds : ℕ)

def containerSystem : System ContainerOp Elsewhere Label ContainerStore Unit where
  program
    | .complete request refused first others => complete request refused first others
    | .execute request refused candidate raises => executeCode request refused candidate raises
    | .sweep batchSize => sweepExpiredContainers batchSize
  env
    | .tick seconds, s => some { s with clock := s.clock + seconds }
  start s := s = {}

abbrev ContainerMachine := Machine ContainerOp Label ContainerStore Unit

def Finished (m : ContainerMachine) (request : ℕ) : Prop :=
  ∃ th, m.threads[request]? = some th ∧ th.prog = .ret ()

/-- **Leases are exclusive and always given back.** -/
structure LeasesSafe (m : ContainerMachine) : Prop where
  /-- At most one request that has not ended holds an unexpired claim on a container. -/
  exclusive : ∀ k k' claim claim', m.store.claims[k]? = some claim →
    m.store.claims[k']? = some claim' → claim.container = claim'.container →
    m.store.live k = true → m.store.live k' = true →
    ¬ Finished m claim.request → ¬ Finished m claim'.request → claim.request = claim'.request
  /-- A resumed sandbox is used only under the request's claim. -/
  used : ∀ use ∈ m.store.uses, use.held = true
  /-- A lease is resumed by the one that took it, before both of its clocks. -/
  resumed : ∀ r ∈ m.store.resumes, (∃ taking ∈ m.store.takings, taking.container = r.container) ∧
    (∀ taking ∈ m.store.takings, taking.container = r.container → taking.owner = r.owner) ∧
    r.now < r.row.expiresAt ∧ r.now < r.row.hardExpiresAt
  /-- The hard clock of a container never moves. -/
  hardExpiresAt : ∀ c row, m.store.rows c = some row →
    ∀ taking ∈ m.store.takings, taking.container = c → taking.hardExpiresAt = row.hardExpiresAt
  hardExpiresAt_taken : ∀ a ∈ m.store.takings, ∀ b ∈ m.store.takings,
    a.container = b.container → a.hardExpiresAt = b.hardExpiresAt
  /-- No claim of a request that has ended is still set. -/
  givenBack : ∀ k claim, m.store.claims[k]? = some claim → Finished m claim.request →
    ∀ c row, m.store.rows c = some row → ∀ use ∈ row.inUse, use.2 ≠ k
  /-- A record or a release ends no claim but its own. -/
  own : ∀ ending ∈ m.store.endings, ending.endedBy = some ending.claim

end Otari.Containers

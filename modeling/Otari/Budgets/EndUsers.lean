import Otari.Support.Cell
import Otari.Support.Threads

/-!
# Budgets — EndUsers — the end users a service key bills

`services/budgets/_end_users.py` over `repositories/budgets/end_user_repository.py`, for the keys of
one owner.  Each call is one block of the unit of work: its statements are acts, what it assigned to
a loaded row is written as the block ends, and an error rolls the block back.

A key's `max_end_users` is admitted under a lock of the owner's row.  The writes carry, for what is
said of a run, whether the block they end read the limit.
-/

namespace Otari.Budgets
open Threads

abbrev Instant := ℤ
abbrev BudgetId := ℕ

/-! ### Data -/

/-- A budget, by what an assignment to it reads: its owner, and `budget_window`, the period an
instant falls in. -/
structure EndUserBudget where
  organizationId : Option ℕ
  budgetWindow : Instant → Option (Instant × Instant)

/-- The owner of the end users, by what makes it unavailable. -/
structure Owner where
  blocked : Bool
  deleted : Bool
deriving DecidableEq

/-- A row of `users` with the owner as its parent.  Its external id is its place in the table. -/
structure User where
  userId : ℕ
  budgetId : Option BudgetId
  budgetStartedAt : Option Instant
  nextBudgetResetAt : Option Instant
  blocked : Bool
  deletedAt : Option Instant
deriving DecidableEq

/-- A key of the owner.  A default off its list is refused when a key is written. -/
structure APIKey where
  isServiceKey : Bool
  selfService : Option Bool
  endUserBudgetId : Option BudgetId
  endUserBudgetIds : Option (List BudgetId)
  maxEndUsers : Option ℕ
  default_listed : ∀ ids ∈ endUserBudgetIds, ∀ b ∈ endUserBudgetId, b ∈ ids

/-- Whether an organization made this service key for itself. -/
def APIKey.isOrganizationServiceKey (key : APIKey) : Bool :=
  key.isServiceKey && key.selfService.getD false

/-- The budgets this key may start an end user on: its list, or else its default alone. -/
def APIKey.assignableEndUserBudgets (key : APIKey) : List BudgetId :=
  match key.endUserBudgetIds with
  | some ids => ids
  | none => key.endUserBudgetId.toList

/-- `_counted`: the budgets a key's `max_end_users` counts, none for every one, and whether it counts
end users on none. -/
def APIKey.counted (key : APIKey) : Option (List BudgetId) × Bool :=
  if key.assignableEndUserBudgets = [] then (none, false)
  else (some key.assignableEndUserBudgets, key.endUserBudgetId.isNone)

inductive EndUserError where
  /-- `must be at most {MAX_EXTERNAL_ID_LENGTH} characters`. -/
  | idInvalid
  | budgetNotAllowed (budgetId : BudgetId)
  | budgetNotFound (budgetId : BudgetId)
  | ownerUnavailable
  | limitReached
  | notFound (externalId : String)
  | notAServiceKey
  /-- `An end user's insert conflicted with a row that is not there`. -/
  | insertConflict
deriving DecidableEq

/-- What a call answers: the end user as it left it, and for a put whether it created it. -/
inductive EndUserAnswer where
  | resolved (userId : ℕ) (budgetId : Option BudgetId)
  | stored (user : User) (created : Bool)
  | updated (user : User)
  | deleted (count : ℕ)
deriving DecidableEq

/-! ### The store -/

structure EndUserStore where
  clock : Instant
  owner : Cell Owner
  users : String → Cell (Option User)
  /-- The external ids that have a row, or an insert of one in progress. -/
  listed : List String
  nextUser : ℕ

/-- What an act may be asked about: the write that ends a block, the row as the block loaded it and as
the block left it, and whether the block read the key's limit. -/
inductive EndUserLabel where
  | step
  | flush (key : APIKey) (externalId : String) (loaded new : User) (checked : Bool)

abbrev Run (α : Type) := Prog EndUserLabel EndUserStore α
abbrev Attempt (α : Type) := ExceptT EndUserError (Prog EndUserLabel EndUserStore) α

/-- Whether a key's limit counts an end user on this budget. -/
def countsOn (counted : Option (List BudgetId) × Bool) : Option BudgetId → Bool
  | none => counted.1.isNone || counted.2
  | some budgetId => counted.1.all (·.contains budgetId)

def countsRow (counted : Option (List BudgetId) × Bool) (row : Option User) : Bool :=
  row.any fun user => user.deletedAt.isNone && countsOn counted user.budgetId

/-! ### The repository's statements -/

def find (externalId : String) : Run (Option User) :=
  .read .step fun t s => (s.users externalId).visible t

def getOwner : Run Owner :=
  .read .step fun t s => s.owner.visible t

/-- Hold the owner's row until the block ends. -/
def lockOwner : Run Unit :=
  .one .step fun t s => (s.owner.lock t).map fun r => ((), { s with owner := r.2 })

def countLiveOnBudgets (counted : Option (List BudgetId) × Bool) : Run ℕ :=
  .read .step fun t s =>
    s.listed.countP fun externalId => countsRow counted ((s.users externalId).visible t)

def enlist (listed : List String) (externalId : String) : List String :=
  if externalId ∈ listed then listed else listed ++ [externalId]

/-- An insert in a savepoint: false when another request's row is there. -/
def add (externalId : String) (user : User) : Run Bool :=
  .one .step fun t s =>
    if (s.users externalId).heldByOther t then none
    else match (s.users externalId).visible t with
      | some _ => some (false, s)
      | none => some (true, { s with
          users := Function.update s.users externalId ((s.users externalId).write t (some user))
          listed := enlist s.listed externalId })

/-- `uuid4().hex`. -/
def newUserId : Run ℕ :=
  .one .step fun _ s => some (s.nextUser, { s with nextUser := s.nextUser + 1 })

/-- `datetime.now(UTC)`. -/
def utcNow : Run Instant :=
  .read .step fun _ s => s.clock

/-- The row with the columns the block changed: the others keep what they hold by then. -/
def User.merge (loaded new row : User) : User where
  userId := row.userId
  budgetId := if new.budgetId = loaded.budgetId then row.budgetId else new.budgetId
  budgetStartedAt :=
    if new.budgetStartedAt = loaded.budgetStartedAt then row.budgetStartedAt else new.budgetStartedAt
  nextBudgetResetAt :=
    if new.nextBudgetResetAt = loaded.nextBudgetResetAt then row.nextBudgetResetAt
    else new.nextBudgetResetAt
  blocked := if new.blocked = loaded.blocked then row.blocked else new.blocked
  deletedAt := if new.deletedAt = loaded.deletedAt then row.deletedAt else new.deletedAt

/-- The session's write of a loaded row as its block ends: nothing when nothing changed. -/
def flush (key : APIKey) (externalId : String) (loaded new : User) (checked : Bool) : Run Unit :=
  if new = loaded then return ()
  else .one (.flush key externalId loaded new checked) fun t s =>
    ((s.users externalId).updateWhere t Option.isSome (·.map (User.merge loaded new))).map fun r =>
      ((), { s with users := Function.update s.users externalId r.2 })

/-- Mark one live end user deleted, and whether it was live. -/
def softDelete (externalId : String) (userIds : List ℕ) (deletedAt : Instant) : Run Bool :=
  .one .step fun t s =>
    ((s.users externalId).updateWhere t
      (·.any fun user => userIds.contains user.userId && user.deletedAt.isNone)
      (·.map fun user => { user with deletedAt := some deletedAt })).map fun r =>
        (r.1, { s with users := Function.update s.users externalId r.2 })

/-- The ids of the table, as an update's scan meets them. -/
def scan : Run (List String) :=
  .read .step fun _ s => s.listed

def commit : Run Unit :=
  .one .step fun t s => some ((), { s with
    owner := s.owner.commit t
    users := fun externalId => (s.users externalId).commit t })

def rollback : Run Unit :=
  .one .step fun t s => some ((), { s with
    owner := s.owner.rollback t
    users := fun externalId => (s.users externalId).rollback t })

/-! ### The checks -/

/-- `MAX_EXTERNAL_ID_LENGTH`. -/
def maxExternalIdLength : ℕ := 256

def checkExternalId (externalId : String) : Attempt Unit :=
  if maxExternalIdLength < externalId.length then throw .idInvalid else pure ()

def requireServiceKey (key : APIKey) : Attempt Unit :=
  if key.isServiceKey then pure () else throw .notAServiceKey

/-- A budget, refused unless it is on the key's list, and of the key's kind of owner. -/
def listedBudget (budgets : BudgetId → Option EndUserBudget) (key : APIKey) (budgetId : BudgetId) :
    Attempt (BudgetId × EndUserBudget) :=
  if budgetId ∈ key.assignableEndUserBudgets then
    match budgets budgetId with
    | some budget =>
      if budget.organizationId.isSome = key.isOrganizationServiceKey then pure (budgetId, budget)
      else throw (.budgetNotFound budgetId)
    | none => throw (.budgetNotFound budgetId)
  else throw (.budgetNotAllowed budgetId)

/-- The key's user, refused when it is blocked or deleted. -/
def availableOwner : Attempt Unit := do
  let owner ← ExceptT.lift getOwner
  if owner.blocked || owner.deleted then throw .ownerUnavailable

def refuseWhenFull (key : APIKey) (maxEndUsers : ℕ) : Attempt Unit := do
  let live ← ExceptT.lift (countLiveOnBudgets key.counted)
  if maxEndUsers ≤ live then throw .limitReached

/-- The row again, once the key's limit admits one more live end user, and whether the limit was
read. -/
def admitted (key : APIKey) (externalId : String) (found : Option User) :
    Attempt (Option User × Bool) :=
  match key.maxEndUsers with
  | none => pure (found, false)
  | some maxEndUsers => do
    ExceptT.lift lockOwner
    let found ← ExceptT.lift (find externalId)
    if found.any (·.deletedAt.isNone) then return (found, false)
    refuseWhenFull key maxEndUsers
    return (found, true)

/-- Refuse moving a live end user onto the key's budgets from outside them when the key is full;
whether the limit was read. -/
def admitMove (key : APIKey) (user : User) : Attempt Bool :=
  match key.maxEndUsers, key.counted.1 with
  | some maxEndUsers, some counted =>
    if user.budgetId.any counted.contains then pure false
    else if user.budgetId.isNone && key.counted.2 then pure false
    else do
      ExceptT.lift lockOwner
      refuseWhenFull key maxEndUsers
      return true
  | _, _ => pure false

def putOnBudget (user : User) (budgetId : BudgetId) (budget : EndUserBudget) (now : Instant) : User :=
  match budget.budgetWindow now with
  | some window => { user with
      budgetId := some budgetId
      budgetStartedAt := some window.1
      nextBudgetResetAt := some window.2 }
  | none => { user with
      budgetId := some budgetId
      budgetStartedAt := some now
      nextBudgetResetAt := none }

def newEndUser (budget : Option (BudgetId × EndUserBudget)) : Run User := do
  let userId ← newUserId
  let now ← utcNow
  let user : User :=
    { userId := userId
      budgetId := none
      budgetStartedAt := none
      nextBudgetResetAt := none
      blocked := false
      deletedAt := none }
  return match budget with
    | some (budgetId, budget) => putOnBudget user budgetId budget now
    | none => user

/-- The end user a concurrent request created first. -/
def lostInsert (externalId : String) : Attempt User := do
  match ← ExceptT.lift (find externalId) with
  | some winner => return winner
  | none => throw .insertConflict

/-- `_existing`. -/
def existing (key : APIKey) (externalId : String) : Attempt User := do
  requireServiceKey key
  match ← ExceptT.lift (find externalId) with
  | some user => if user.deletedAt.isSome then throw (.notFound externalId) else return user
  | none => throw (.notFound externalId)

/-! ### The calls -/

/-- The budget a new end user starts on: the requested one, or else the key's default. -/
def startingBudget (budgets : BudgetId → Option EndUserBudget) (key : APIKey)
    (requested : Option (BudgetId × EndUserBudget)) : Option (BudgetId × EndUserBudget) :=
  match requested, key.endUserBudgetId with
  | some budget, _ => some budget
  | none, some budgetId => (budgets budgetId).map fun budget => (budgetId, budget)
  | none, none => none

def requestedBudget (budgets : BudgetId → Option EndUserBudget) (key : APIKey) :
    Option BudgetId → Attempt (Option (BudgetId × EndUserBudget))
  | some budgetId => do
    let budget ← listedBudget budgets key budgetId
    return some budget
  | none => pure none

/-- A request's look-up: an end user that is not live is looked up again, admitted. -/
def lookUpForRequest (key : APIKey) (externalId : String) : Attempt (Option User × Bool) := do
  let found ← ExceptT.lift (find externalId)
  if found.any (·.deletedAt.isNone) then return (found, false)
  else admitted key externalId found

def resolve (budgets : BudgetId → Option EndUserBudget) (key : APIKey) (externalId : String)
    (requestedBudgetId : Option BudgetId) : Attempt EndUserAnswer := do
  checkExternalId externalId
  let requested ← requestedBudget budgets key requestedBudgetId
  availableOwner
  let (found, checked) ← lookUpForRequest key externalId
  match found with
  | some user =>
    ExceptT.lift (flush key externalId user { user with deletedAt := none } checked)
    return .resolved user.userId user.budgetId
  | none =>
    let user ← ExceptT.lift (newEndUser (startingBudget budgets key requested))
    if ← ExceptT.lift (add externalId user) then return .resolved user.userId user.budgetId
    let winner ← lostInsert externalId
    return .resolved winner.userId winner.budgetId

/-- The end of a put: a found end user is live, and on the budget. -/
def putFound (key : APIKey) (externalId : String) (user : User) (budget : BudgetId × EndUserBudget)
    (checked : Bool) : Attempt EndUserAnswer := do
  let now ← ExceptT.lift utcNow
  let live := { user with deletedAt := none }
  let new := if user.budgetId = some budget.1 then live
    else putOnBudget live budget.1 budget.2 now
  ExceptT.lift (flush key externalId user new checked)
  return .stored new false

/-- A put's look-up: one that is not live is looked up again, admitted, and one elsewhere is
admitted as it was read. -/
def lookUpForPut (key : APIKey) (externalId : String) (budgetId : BudgetId) :
    Attempt (Option User × Bool) := do
  match ← ExceptT.lift (find externalId) with
  | some user =>
    if user.deletedAt.isSome then admitted key externalId (some user)
    else if user.budgetId ≠ some budgetId then
      let checked ← admitMove key user
      return (some user, checked)
    else return (some user, false)
  | none => admitted key externalId none

def put (budgets : BudgetId → Option EndUserBudget) (key : APIKey) (externalId : String)
    (budgetId : BudgetId) : Attempt EndUserAnswer := do
  requireServiceKey key
  checkExternalId externalId
  let budget ← listedBudget budgets key budgetId
  availableOwner
  let (found, checked) ← lookUpForPut key externalId budgetId
  match found with
  | some user => putFound key externalId user budget checked
  | none =>
    let user ← ExceptT.lift (newEndUser (some budget))
    if ← ExceptT.lift (add externalId user) then return .stored user true
    let winner ← lostInsert externalId
    putFound key externalId winner budget checked

/-- An update's move, where it names another budget. -/
def updateMove (budgets : BudgetId → Option EndUserBudget) (key : APIKey) (user : User) :
    Option BudgetId → Attempt (User × Bool)
  | none => pure (user, false)
  | some budgetId => do
    let budget ← listedBudget budgets key budgetId
    if user.budgetId ≠ some budgetId then
      let checked ← admitMove key user
      let now ← ExceptT.lift utcNow
      return (putOnBudget user budgetId budget.2 now, checked)
    else return (user, false)

def update (budgets : BudgetId → Option EndUserBudget) (key : APIKey) (externalId : String)
    (blocked : Option Bool) (budgetId : Option BudgetId) : Attempt EndUserAnswer := do
  let user ← existing key externalId
  let (moved, checked) ← updateMove budgets key user budgetId
  let new := { moved with blocked := blocked.getD moved.blocked }
  ExceptT.lift (flush key externalId user new checked)
  return .updated new

def deleteScan (userIds : List ℕ) (deletedAt : Instant) : List String → Run ℕ
  | [] => return 0
  | externalId :: rest => do
    let hit ← softDelete externalId userIds deletedAt
    let more ← deleteScan userIds deletedAt rest
    return (if hit then 1 else 0) + more

def delete (key : APIKey) (userIds : List ℕ) : Attempt EndUserAnswer := do
  requireServiceKey key
  let now ← ExceptT.lift utcNow
  let externalIds ← ExceptT.lift scan
  let count ← ExceptT.lift (deleteScan userIds now externalIds)
  return .deleted count

/-! ### The machine -/

inductive EndUserCall (keys : List APIKey) where
  | resolve (key : {key // key ∈ keys}) (externalId : String) (budgetId : Option BudgetId)
  | put (key : {key // key ∈ keys}) (externalId : String) (budgetId : BudgetId)
  | update (key : {key // key ∈ keys}) (externalId : String) (blocked : Option Bool)
      (budgetId : Option BudgetId)
  | delete (key : {key // key ∈ keys}) (userIds : List ℕ)

/-- A block of the unit of work: it commits, or rolls back and raises. -/
def block (body : Attempt EndUserAnswer) : Run (Except EndUserError EndUserAnswer) := do
  match ← body.run with
  | .ok answer =>
    commit
    return .ok answer
  | .error e =>
    rollback
    return .error e

def EndUserCall.program (budgets : BudgetId → Option EndUserBudget) {keys : List APIKey} :
    EndUserCall keys → Run (Except EndUserError EndUserAnswer)
  | .resolve key externalId budgetId =>
    block (Budgets.resolve budgets key.val externalId budgetId)
  | .put key externalId budgetId => block (Budgets.put budgets key.val externalId budgetId)
  | .update key externalId blocked budgetId =>
    block (Budgets.update budgets key.val externalId blocked budgetId)
  | .delete key userIds => block (Budgets.delete key.val userIds)

/-- What happens beside the calls: time passes, and the owner is blocked or deleted. -/
inductive EndUserElsewhere where
  | clock (now : Instant)
  | owner (owner : Owner)

end Otari.Budgets

import Otari.Pricing.Overrides
import Otari.Support.Threads

/-!
# Pricing — PriceCache — the process cache of stored rates

`resolve_model_pricing` of `services/pricing_service.py` over its cache, and the write generation of
`repositories/pricing/organization_model_pricing_repository.py`: every flush, bulk statement, commit
and rollback of a price change counts, and a new count drops the cache.

A thread is one session, used by one coroutine.  What the session wrote is its own until a commit
lands; a `SELECT` sees the committed tables under the session's own writes.  The committed tables
are numbered in the order they landed, and `completed` is the newest whose commit has returned.
No writer of prices takes a savepoint, so a commit or a rollback ends its whole transaction.
-/

namespace Otari.Pricing
open Threads

/-! ### Data -/

structure Prices where
  overrides : List OrganizationModelPricing
  modelPricing : List ModelPricing

abbrev Write := Prices → Prices

/-- What a session holds: the price changes it has not flushed, those it has, and
`info["gateway.prices_written"]`. -/
structure Session where
  unflushed : List Write := []
  flushed : List Write := []
  pricesWritten : Bool := false

def writtenOver (own : List Write) (committed : Prices) : Prices :=
  own.foldl (fun prices write => write prices) committed

def Session.view (session : Session) (committed : Prices) : Prices :=
  writtenOver session.flushed committed

/-- `_holds_price_change`. -/
def Session.holdsPriceChange (session : Session) : Bool :=
  !session.unflushed.isEmpty

def pendingPriceWrites (session : Session) : Bool :=
  session.pricesWritten || session.holdsPriceChange

/-- The organization, the model key and the payer. -/
abbrev CacheKey := Option ℕ × Key × Bool

/-- `PRICING_CACHE_TTL_SECONDS`. -/
def pricingCacheTtlSeconds : Instant := 30

/-- `_PRICING_CACHE_MAX_ENTRIES`. -/
def pricingCacheMaxEntries : ℕ := 10000

/-- What a lookup without `as_of` is asked. -/
structure LookupRequest where
  provider : Option Key
  model : Key
  organizationId : Option ℕ
  deploymentPaid : Bool
  useDefaults : Bool

def LookupRequest.modelKey (request : LookupRequest) : Key :=
  modelKeyOf request.provider request.model

def LookupRequest.cacheKey (request : LookupRequest) : CacheKey :=
  (request.organizationId, request.modelKey, request.deploymentPaid)

/-- A lookup that returned: what it resolved in the stored tables and what it answered, what its
session had written and not committed, its time, the newest version whose commit had returned as it
began and when the last one had, and the newest committed as it returned. -/
structure Lookup where
  request : LookupRequest
  stored : Option ResolvedPricing
  result : Option ResolvedPricing
  own : List Write
  lookupTime : Instant
  began : ℕ
  completedAt : Instant
  returned : ℕ

structure PriceStore where
  /-- The tables as each commit left them, up to the `latest`. -/
  versions : ℕ → Prices
  latest : ℕ
  /-- The newest version whose commit has returned in this process. -/
  completed : ℕ
  /-- When the last of them returned. -/
  completedAt : Instant
  /-- `_price_writes`. -/
  generation : ℕ
  /-- `_stored_prices`: each key with when it expires and what it resolved to. -/
  cache : List (CacheKey × Instant × Option ResolvedPricing)
  /-- `_stored_prices_generation`. -/
  cacheGeneration : ℕ
  clock : Instant
  /-- The lookups that returned, newest first; a record, which nothing reads. -/
  lookups : List Lookup := []

def PriceStore.committed (s : PriceStore) : Prices := s.versions s.latest

abbrev PriceRun (α : Type) := Prog Unit PriceStore α

/-! ### Writes -/

/-- `_count_price_write`, beside the session's mark. -/
def countPriceWrite : PriceRun Unit :=
  .one () fun _ s => some ((), { s with generation := s.generation + 1 })

/-- The statements of a flush run, and then `after_flush`, which still sees what was flushed. -/
def flush (session : Session) : PriceRun Session :=
  if session.holdsPriceChange then do
    countPriceWrite
    return { unflushed := [], flushed := session.flushed ++ session.unflushed, pricesWritten := true }
  else return session

/-- A bulk statement: `do_orm_execute` counts it before it runs. -/
def execute (session : Session) (write : Write) : PriceRun Session := do
  let session ← flush session
  countPriceWrite
  return { session with flushed := session.flushed ++ [write], pricesWritten := true }

/-- `COMMIT` lands: the version it made, when the session wrote prices. -/
def landCommit (session : Session) : PriceRun (Option ℕ) :=
  .one () fun _ s =>
    if session.flushed.isEmpty then some (none, s)
    else some (some (s.latest + 1),
      { s with
        versions := Function.update s.versions (s.latest + 1) (session.view s.committed)
        latest := s.latest + 1 })

/-- `_count_price_transaction_end`, and the commit returns. -/
def returnCommit (session : Session) (version : Option ℕ) : PriceRun Unit :=
  .one () fun _ s => some ((),
    { s with
      generation := if session.pricesWritten then s.generation + 1 else s.generation
      completed := max s.completed (version.getD 0)
      completedAt := if version.isSome then s.clock else s.completedAt })

def commit (session : Session) : PriceRun Session := do
  let session ← flush session
  let version ← landCommit session
  returnCommit session version
  return {}

/-- `after_rollback`. -/
def rollback (session : Session) : PriceRun Session :=
  if session.pricesWritten then do
    countPriceWrite
    return {}
  else return {}

/-- A commit the database failed, which may have landed, and the rollback that has to follow. -/
def failCommit (session : Session) (landed : Bool) : PriceRun Session := do
  let session ← flush session
  if landed then
    let _ ← landCommit session
    rollback session
  else rollback session

/-! ### Lookups -/

/-- `_cached_stored_pricing`: the entry of the last TTL with no price write since, and the cache
with what an earlier generation left dropped. -/
def cachedStoredPricing (s : PriceStore) (key : CacheKey) :
    Option (Option ResolvedPricing) × PriceStore :=
  let s := if s.generation = s.cacheGeneration then s
    else { s with cache := [], cacheGeneration := s.generation }
  (((s.cache.lookup key).filter fun entry => s.clock < entry.1).map Prod.snd, s)

/-- `_cache_stored_pricing`: keep what was resolved, unless a price write landed meanwhile. -/
def cacheStoredPricing (s : PriceStore) (key : CacheKey) (resolved : Option ResolvedPricing)
    (readAtGeneration : ℕ) : PriceStore :=
  if readAtGeneration = s.generation then
    let kept := if pricingCacheMaxEntries ≤ s.cache.length then [] else s.cache
    { s with
      cache := (key, s.clock + pricingCacheTtlSeconds, resolved) ::
        kept.filter fun entry => entry.1 ≠ key }
  else s

/-- `_find_organization_override`, as the first rung of the ladder. -/
def selectOverride (session : Session) (request : LookupRequest) (lookupTime : Instant) :
    PriceRun (Option ResolvedPricing) :=
  match request.organizationId with
  | none => return none
  | some organization =>
    .read () fun _ s =>
      (findOrganizationOverride (session.view s.committed).overrides organization
        (pricingKeyForms request.modelKey) lookupTime request.deploymentPaid).map ofOverride

/-- `_find_by_model_key`, form by form until one answers. -/
def selectStored (session : Session) (lookupTime : Instant) :
    List Key → Option ResolvedPricing → PriceRun (Option ResolvedPricing)
  | [], stored => return stored
  | key :: keys, stored =>
    if stored.isSome then return stored
    else do
      let row ← .read () fun _ s =>
        (findByModelKey (session.view s.committed).modelPricing key lookupTime).map ofDeployment
      selectStored session lookupTime keys row

/-- What the default rung answers, which is in memory and always resolved fresh. -/
abbrev Defaults := Option Key → Key → Instant → Option ResolvedPricing

/-- The stored rate, or else the default one. -/
def orDefault (defaults : Defaults) (request : LookupRequest) (lookupTime : Instant)
    (stored : Option ResolvedPricing) : Option ResolvedPricing :=
  stored.or (if request.useDefaults then defaults request.provider request.model lookupTime
    else none)

/-- How a lookup that has to read starts: the generation it reads at and the lookup time.
`completed` and `completedAt` are recorded for what is said of the answer. -/
structure LookupStart where
  generation : ℕ
  lookupTime : Instant
  completed : ℕ
  completedAt : Instant

def PriceStore.answer (s : PriceStore) (defaults : Defaults) (request : LookupRequest)
    (start : LookupStart) (own : List Write) (stored : Option ResolvedPricing) : PriceStore :=
  { s with lookups := ⟨request, stored, orDefault defaults request start.lookupTime stored, own,
      start.lookupTime, start.completed, start.completedAt, s.latest⟩ :: s.lookups }

/-- A hit is returned, if the cache may be used and has one. -/
def startLookup (defaults : Defaults) (request : LookupRequest) (useCache : Bool) :
    PriceRun (Option LookupStart) :=
  .one () fun _ s =>
    let (hit, s) := if useCache then cachedStoredPricing s request.cacheKey else (none, s)
    let start : LookupStart := ⟨s.generation, s.clock, s.completed, s.completedAt⟩
    match hit with
    | some stored => some (none, s.answer defaults request start [] stored)
    | none => some (some start, s)

/-- What was read is kept, if the cache may be used, and returned. -/
def returnRead (defaults : Defaults) (request : LookupRequest) (start : LookupStart)
    (useCache : Bool) (own : List Write) (stored : Option ResolvedPricing) : PriceRun Unit :=
  .one () fun _ s =>
    let s := if useCache then cacheStoredPricing s request.cacheKey stored start.generation else s
    some ((), s.answer defaults request start own stored)

/-- `resolve_model_pricing`, without `as_of`.  A `SELECT` flushes what its session holds first. -/
def resolveStoredPricing (defaults : Defaults) (session : Session) (request : LookupRequest) :
    PriceRun Session := do
  let useCache := !pendingPriceWrites session
  match ← startLookup defaults request useCache with
  | none => return session
  | some start =>
    let session ← flush session
    let override ← selectOverride session request start.lookupTime
    let stored ← selectStored session start.lookupTime (pricingKeyForms request.modelKey) override
    returnRead defaults request start useCache session.flushed stored
    return session

/-! ### The machine -/

inductive SessionOp where
  | write (write : Write)
  | flush
  | execute (write : Write)
  | commit
  | failCommit (landed : Bool)
  | rollback
  | close
  | lookup (request : LookupRequest)

/-- A session's operations one after another.  Closing a session ends its transaction with no
event. -/
def runSession (defaults : Defaults) : Session → List SessionOp → PriceRun Unit
  | _, [] => return ()
  | session, .write write :: ops =>
    runSession defaults { session with unflushed := session.unflushed ++ [write] } ops
  | session, .flush :: ops => do runSession defaults (← flush session) ops
  | session, .execute write :: ops => do runSession defaults (← execute session write) ops
  | session, .commit :: ops => do runSession defaults (← commit session) ops
  | session, .failCommit landed :: ops => do runSession defaults (← failCommit session landed) ops
  | session, .rollback :: ops => do runSession defaults (← rollback session) ops
  | session, .close :: ops =>
    runSession defaults { pricesWritten := session.pricesWritten } ops
  | session, .lookup request :: ops => do
    runSession defaults (← resolveStoredPricing defaults session request) ops

/-- What happens beside the sessions: time passes, another process commits, and the cache is
reset. -/
inductive Elsewhere where
  | tick (seconds : ℕ)
  | foreignCommit (write : Write)
  | resetPricingCache

def cacheSystem (defaults : Defaults) :
    System (List SessionOp) Elsewhere Unit PriceStore Unit where
  program ops := runSession defaults {} ops
  env
    | .tick seconds, s => some { s with clock := s.clock + seconds }
    | .foreignCommit write, s => some { s with
        versions := Function.update s.versions (s.latest + 1) (write s.committed)
        latest := s.latest + 1 }
    | .resetPricingCache, s => some { s with cache := [] }
  start s := s.completed = s.latest ∧ s.completedAt ≤ s.clock ∧ s.cache = [] ∧
    s.cacheGeneration = s.generation ∧ s.lookups = []

end Otari.Pricing

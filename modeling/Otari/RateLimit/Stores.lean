import Mathlib.Data.Nat.Digits.Lemmas
import Otari.Support.Rounding

/-!
# Rate limit — Stores — counting in this process, and counting in Redis

The two stores of `RateLimitStorePort`: `InMemoryRateLimitStore` over `SlidingWindowLog`, and
`RedisRateLimitStore` over three scripts, with the in-process store behind it for when Redis cannot
answer.  Instants are whole milliseconds of one clock; widths and lease lengths are milliseconds,
not always whole.  In this process all of them are seconds, in doubles: an entry or a lease is held by
the milliseconds it stands for, and `Doubles` says what a double holds of them.  A number inside a script
is a double too.
-/

namespace Otari.RateLimit

abbrev Key := String

abbrev Handle := List Char

/-- What a store answered for one entry against one window limit. -/
structure RateLimitWindow where
  allowed : Bool
  count : ℤ
  resetAfter : ℚ
  handle : Option Handle
  deriving DecidableEq

/-- What the doubles of a number of milliseconds hold of it. -/
structure Doubles where
  /-- In milliseconds, the double of its seconds. -/
  seconds : ℚ → ℚ
  /-- The double of the number itself. -/
  millis : ℚ → ℚ

def doubles : Doubles := ⟨fun ms => Rounding.double (ms / 1000) * 1000, Rounding.double⟩

def exactly : Doubles := ⟨id, id⟩

@[simp] theorem exactly_seconds (ms : ℚ) : exactly.seconds ms = ms := rfl

@[simp] theorem exactly_millis (ms : ℚ) : exactly.millis ms = ms := rfl

/-! ### In this process -/

section
variable (d : Doubles)

/-- An admitted entry: its place in the deque, and its cost, which enters and leaves with it. -/
structure Entry (η : Type) where
  time : ℤ
  handle : η
  cost : ℤ
  deriving DecidableEq

/-- `_Window`: one key's admitted entries, oldest first, and what they count for. -/
structure Window where
  entries : List (Entry Handle)
  total : ℤ

structure SlidingWindowLog where
  requests : Key → Option Window
  callCount : ℕ
  widestWindow : ℚ
  handles : ℕ

def SlidingWindowLog.empty : SlidingWindowLog := ⟨fun _ => none, 0, 0, 0⟩

def cleanupInterval : ℕ := 1000

/-- The `while` that pops what has left the window off the front. -/
def Window.expire (cutoff : ℚ) : List (Entry Handle) → ℤ → Window
  | [], total => ⟨[], total⟩
  | e :: rest, total =>
    if d.seconds e.time ≤ cutoff then expire cutoff rest (total - e.cost) else ⟨e :: rest, total⟩

/-- `_cleanup`: a key with no entry after the cutoff is dropped. -/
def SlidingWindowLog.cleanup (cutoff : ℚ) (requests : Key → Option Window) : Key → Option Window :=
  fun key => (requests key).filter fun w => w.entries.getLast?.any fun e => cutoff < d.seconds e.time

/-- `str(next(self._handles))`. -/
def str (n : ℕ) : Handle := Nat.toDigits 10 n

/-- The time until the oldest entry leaves the window. -/
def resetIn (now : ℤ) (windowSec : ℚ) : List (Entry Handle) → ℚ
  | [] => windowSec
  | oldest :: _ => d.seconds (d.seconds (d.seconds oldest.time + windowSec) - d.seconds now)

def SlidingWindowLog.hit (log : SlidingWindowLog) (now : ℤ) (key : Key) (limit : ℤ)
    (windowSec : ℚ) (cost : ℤ) : RateLimitWindow × SlidingWindowLog :=
  let cutoff := d.seconds (d.seconds now - windowSec)
  let widest := max log.widestWindow windowSec
  let cleaning := cleanupInterval ≤ log.callCount + 1
  let callCount := if cleaning then 0 else log.callCount + 1
  let requests :=
    if cleaning then SlidingWindowLog.cleanup d (d.seconds (d.seconds now - widest)) log.requests
    else log.requests
  let window := (requests key).getD ⟨[], 0⟩
  let window := Window.expire d cutoff window.entries window.total
  if window.total + cost ≤ limit then
    let handle := str log.handles
    let window : Window := ⟨window.entries ++ [⟨now, handle, cost⟩], window.total + cost⟩
    (⟨true, window.total, resetIn d now windowSec window.entries, some handle⟩,
      ⟨Function.update requests key (some window), callCount, widest, log.handles + 1⟩)
  else
    (⟨false, window.total, resetIn d now windowSec window.entries, none⟩,
      ⟨Function.update requests key (some window), callCount, widest, log.handles⟩)

/-- The entry with this handle counts for `cost` instead. -/
def recost {η : Type} [DecidableEq η] (handle : η) (cost : ℤ) (e : Entry η) : Entry η :=
  if e.handle = handle then { e with cost := cost } else e

def SlidingWindowLog.settle (log : SlidingWindowLog) (key : Key) (handle : Handle) (cost : ℤ) :
    SlidingWindowLog :=
  match log.requests key with
  | none => log
  | some window =>
    match window.entries.find? fun e => e.handle = handle with
    | none => log
    | some e =>
      let window :=
        ⟨window.entries.map (recost handle cost), window.total + (cost - e.cost)⟩
      { log with requests := Function.update log.requests key (some window) }

/-- A lease, held by when it was granted and for how long. -/
structure Lease where
  id : Handle
  granted : ℤ
  length : ℚ
  deriving DecidableEq

/-- `expires_at`. -/
def Lease.expiresAt (l : Lease) : ℚ := d.seconds (d.seconds l.granted + l.length)

/-- `expires_at <= now`. -/
def Lease.over (now : ℤ) (l : Lease) : Bool := l.expiresAt d ≤ d.seconds now

structure InMemoryRateLimitStore where
  log : SlidingWindowLog
  leases : Key → Option (List Lease)
  acquires : ℕ

def InMemoryRateLimitStore.empty : InMemoryRateLimitStore := ⟨.empty, fun _ => none, 0⟩

namespace InMemoryRateLimitStore

def hit (store : InMemoryRateLimitStore) (now : ℤ) (key : Key) (limit : ℤ) (windowSec : ℚ)
    (cost : ℤ) : RateLimitWindow × InMemoryRateLimitStore :=
  let (window, log) := store.log.hit d now key limit windowSec cost
  (window, { store with log := log })

def settle (store : InMemoryRateLimitStore) (key : Key) (handle : Handle) (cost : ℤ) :
    InMemoryRateLimitStore :=
  { store with log := store.log.settle key handle cost }

/-- `uuid` is the lease's `uuid4().hex`, drawn when the slot is granted. -/
def acquire (store : InMemoryRateLimitStore) (uuid : Handle) (now : ℤ) (key : Key) (limit : ℤ)
    (leaseSec : ℚ) : Option Handle × InMemoryRateLimitStore :=
  let cleaning := cleanupInterval ≤ store.acquires + 1
  let acquires := if cleaning then 0 else store.acquires + 1
  let leases : Key → Option (List Lease) :=
    if cleaning then fun k => (store.leases k).filter fun slots => !slots.all (Lease.over d now)
    else store.leases
  let slots := ((leases key).getD []).filter fun s => !s.over d now
  if limit ≤ slots.length then
    (none, { store with leases := Function.update leases key (some slots), acquires := acquires })
  else
    (some uuid, { store with
      leases := Function.update leases key (some (slots ++ [⟨uuid, now, leaseSec⟩]))
      acquires := acquires })

def release (store : InMemoryRateLimitStore) (key : Key) (lease : Handle) :
    InMemoryRateLimitStore :=
  match store.leases key with
  | none => store
  | some slots =>
    let slots := slots.filter fun s => s.id ≠ lease
    { store with leases :=
        Function.update store.leases key (if slots = [] then none else some slots) }

end InMemoryRateLimitStore

end

/-! ### Redis and its scripts -/

/-- An integer as a double holds it: exact up to `2 ^ 53`, then the nearest of 53 bits, ties to
even. -/
def toDouble (n : ℤ) : ℤ :=
  if n.natAbs ≤ 2 ^ 53 then n else
    let ulp := 2 ^ (Nat.log2 n.natAbs - 52)
    let low := n.natAbs / ulp
    let excess := 2 * (n.natAbs % ulp)
    let mantissa := if ulp < excess ∨ excess = ulp ∧ low % 2 = 1 then low + 1 else low
    n.sign * (mantissa * ulp : ℕ)

/-- A Lua number handed to a command that takes an integer: past `2 ^ 62` it is written with an
exponent, which the command refuses. -/
def integerArg (n : ℤ) : Option ℤ :=
  if n.natAbs ≤ 2 ^ 62 then some n else none

/-- A value under a Redis key, and when `PEXPIRE` drops it. -/
structure Expiring (α : Type) where
  value : α
  expiresAt : Option ℤ

abbrev Zset := List (Handle × ℤ)

abbrev Hash := Handle → Option ℤ

/-- What one rate-limit key has in Redis: its `:log`, its `:cost` and its `:leases`.  A key that is
not there reads as an empty value with no expiry. -/
structure RedisKey where
  log : Expiring Zset
  cost : Expiring Hash
  leases : Expiring Zset

abbrev Redis := Key → RedisKey

def noZset : Expiring Zset := ⟨[], none⟩

def noHash : Expiring Hash := ⟨fun _ => none, none⟩

def Redis.empty : Redis := fun _ => ⟨noZset, noHash, noZset⟩

/-- A key whose expiry has run out is not there. -/
def Expiring.at {α : Type} (missing : Expiring α) (now : ℤ) (e : Expiring α) : Expiring α :=
  if e.expiresAt.any (· ≤ now) then missing else e

def RedisKey.at (now : ℤ) (k : RedisKey) : RedisKey :=
  ⟨noZset.at now k.log, noHash.at now k.cost, noZset.at now k.leases⟩

/-- A sorted set that loses its last member is gone, its expiry with it. -/
def zrem (gone : Handle × ℤ → Bool) (z : Expiring Zset) : Expiring Zset :=
  let value := z.value.filter fun m => !gone m
  if value = [] then noZset else { z with value := value }

def zadd (score : ℤ) (member : Handle) (z : Expiring Zset) : Expiring Zset :=
  { z with value := z.value.filter (fun m => m.1 ≠ member) ++ [(member, score)] }

def lowest (z : Zset) : Option ℤ := (z.map Prod.snd).min?

/-- A delay of zero or less drops the key at once. -/
def pexpire {α : Type} (missing : Expiring α) (now delay : ℤ) (e : Expiring α) : Expiring α :=
  if delay ≤ 0 then missing else { e with expiresAt := some (now + delay) }

def Hash.get (hash : Hash) (field : Handle) : ℤ := toDouble ((hash field).getD 0)

def totalField : Handle := ['#']

/-- `HINCRBY KEYS[2] '#'`: refused past 64 bits. -/
def hincrby (delta : ℤ) (cost : Expiring Hash) : Option (Expiring Hash) :=
  (integerArg delta).bind fun delta =>
    let total := (cost.value totalField).getD 0 + delta
    if -2 ^ 63 ≤ total ∧ total < 2 ^ 63 then
      some { cost with value := Function.update cost.value totalField (some total) }
    else none

/-- The loop over the expired handles: each is subtracted once, as it leaves. -/
def free : List Handle → ℤ → Hash → ℤ × Hash
  | [], freed, hash => (freed, hash)
  | handle :: rest, freed, hash =>
    free rest (toDouble (freed + hash.get handle)) (Function.update hash handle none)

/-- The first half of `_HIT_SCRIPT`: what has left the window is dropped and subtracted.  A script
that a command stops keeps what it did so far. -/
def freeExpired (now window : ℤ) (k : RedisKey) : Except RedisKey RedisKey :=
  let cutoff := toDouble (now - window)
  let expired := k.log.value.filter fun m => m.2 ≤ cutoff
  if expired = [] then .ok k
  else
    let (freed, hash) := free (expired.map Prod.fst) 0 k.cost.value
    let k := { k with
      log := zrem (fun m => m.2 ≤ cutoff) k.log
      cost := { k.cost with value := hash } }
    match hincrby (-freed) k.cost with
    | none => .error k
    | some cost => .ok { k with cost := cost }

/-- The second half: the entry is counted when it fits. -/
def countEntry (now limit window cost : ℤ) (handle : Handle) (k : RedisKey) :
    Except RedisKey (Bool × ℤ × RedisKey) :=
  let total := k.cost.value.get totalField
  if toDouble (total + cost) ≤ limit then
    let k := { k with
      log := zadd now handle k.log
      cost := { k.cost with value := Function.update k.cost.value handle (some cost) } }
    match hincrby cost k.cost with
    | none => .error k
    | some counted =>
      let total := counted.value.get totalField
      let k := { k with cost := counted }
      match integerArg window with
      | none => .error k
      | some window => .ok (true, total, { k with
          log := pexpire noZset now window k.log
          cost := pexpire noHash now window k.cost })
  else .ok (false, total, k)

/-- The milliseconds until the entry with the lowest score leaves. -/
def reset (now window : ℤ) : Option ℤ → ℤ
  | none => window
  | some oldest => toDouble (toDouble (oldest + window) - now)

/-- `_HIT_SCRIPT`: allowed, the total, and the milliseconds until the oldest entry leaves; nothing
when a command stops it. -/
def hitScript (now limit window cost : ℤ) (handle : Handle) (k : RedisKey) :
    Option (Bool × ℤ × ℤ) × RedisKey :=
  let limit := toDouble limit
  let window := toDouble window
  let cost := toDouble cost
  match freeExpired now window (k.at now) with
  | .error k => (none, k)
  | .ok k =>
    match countEntry now limit window cost handle k with
    | .error k => (none, k)
    | .ok (allowed, total, k) =>
      (some (allowed, total, reset now window (lowest k.log.value)), k)

/-- `_SETTLE_SCRIPT`. -/
def settleScript (now : ℤ) (handle : Handle) (cost : ℤ) (k : RedisKey) : Option Unit × RedisKey :=
  let k := k.at now
  match k.cost.value handle with
  | none => (some (), k)
  | some old =>
    let k := { k with
      cost := { k.cost with value := Function.update k.cost.value handle (some cost) } }
    match hincrby (toDouble (toDouble cost - toDouble old)) k.cost with
    | none => (none, k)
    | some counted => (some (), { k with cost := counted })

/-- `PTTL`: what is left, or -1 for a key that does not expire. -/
def pttl {α : Type} (now : ℤ) (e : Expiring α) : ℤ :=
  match e.expiresAt with
  | none => -1
  | some t => t - now

/-- `_ACQUIRE_SCRIPT`. -/
def acquireScript (now limit lease : ℤ) (uuid : Handle) (k : RedisKey) : Option Bool × RedisKey :=
  let limit := toDouble limit
  let lease := toDouble lease
  let k := k.at now
  let leases := zrem (fun m => m.2 ≤ now) k.leases
  if limit ≤ leases.value.length then (some false, { k with leases := leases })
  else
    let leases := zadd (toDouble (now + lease)) uuid leases
    if pttl now leases < lease then
      match integerArg lease with
      | none => (none, { k with leases := leases })
      | some lease => (some true, { k with leases := pexpire noZset now lease leases })
    else (some true, { k with leases := leases })

/-- `ZREM` of a lease. -/
def zremLease (now : ℤ) (lease : Handle) (k : RedisKey) : Option Unit × RedisKey :=
  let k := k.at now
  (some (), { k with leases := zrem (fun m => m.1 = lease) k.leases })

/-! ### The Redis store and its fallback -/

/-- What becomes of a call to Redis: it is answered, it never arrives, or it runs and its answer is
lost. -/
inductive Reply where
  | answered
  | unreachable
  | lost
  deriving DecidableEq

structure RedisRateLimitStore where
  redis : Redis
  fallback : InMemoryRateLimitStore
  retryAt : Option ℚ

def RedisRateLimitStore.empty : RedisRateLimitStore := ⟨.empty, .empty, none⟩

/-- `_REDIS_RETRY_AFTER_SEC`, in milliseconds. -/
def redisRetryAfter : ℚ := 5000

def localPrefix : Handle := "local:".toList

/-- `handle and _LOCAL_PREFIX + handle`. -/
def markLocal (handle : Handle) : Handle :=
  if handle = [] then handle else localPrefix ++ handle

/-- `handle.removeprefix(_LOCAL_PREFIX)` of a handle that `startswith` it. -/
def ofLocal (handle : Handle) : Option Handle :=
  if localPrefix.isPrefixOf handle then some (handle.drop localPrefix.length) else none

namespace RedisRateLimitStore

/-- One script against the keys of `key`. -/
def script {α : Type} (key : Key) (run : RedisKey → Option α × RedisKey) (redis : Redis) :
    Option α × Redis :=
  ((run (redis key)).1, Function.update redis key (run (redis key)).2)

section
variable (d : Doubles)

def redisOrFallback {α : Type} (store : RedisRateLimitStore) (now : ℤ) (reply : Reply)
    (call : Redis → Option α × Redis)
    (fallback : InMemoryRateLimitStore → α × InMemoryRateLimitStore) : α × RedisRateLimitStore :=
  let failed (redis : Redis) (retryAt : Option ℚ) : α × RedisRateLimitStore :=
    ((fallback store.fallback).1, ⟨redis, (fallback store.fallback).2, retryAt⟩)
  let retryAt := d.seconds (d.seconds now + redisRetryAfter)
  if store.retryAt.any (d.seconds now < ·) then failed store.redis store.retryAt
  else
    match reply with
    | .unreachable => failed store.redis (some retryAt)
    | .lost => failed (call store.redis).2 (some retryAt)
    | .answered =>
      match call store.redis with
      | (none, redis) => failed redis (some retryAt)
      | (some result, redis) => (result, ⟨redis, store.fallback, none⟩)

def noop (fallback : InMemoryRateLimitStore) : Unit × InMemoryRateLimitStore := ((), fallback)

/-- `uuid` is the handle's `uuid4().hex`, drawn before Redis is asked. -/
def hit (store : RedisRateLimitStore) (uuid : Handle) (reply : Reply) (now : ℤ) (key : Key)
    (limit : ℤ) (windowSec : ℚ) (cost : ℤ) : RateLimitWindow × RedisRateLimitStore :=
  let call (redis : Redis) : Option RateLimitWindow × Redis :=
    let (reply, redis) := script key (hitScript now limit ⌈d.millis windowSec⌉ cost uuid) redis
    (reply.map fun (allowed, total, reset) =>
      ⟨allowed, total, d.seconds reset, if allowed then some uuid else none⟩, redis)
  let fallback (memory : InMemoryRateLimitStore) : RateLimitWindow × InMemoryRateLimitStore :=
    let (window, memory) := memory.hit d now key limit windowSec cost
    ({ window with handle := window.handle.map markLocal }, memory)
  redisOrFallback d store now reply call fallback

def settle (store : RedisRateLimitStore) (reply : Reply) (now : ℤ) (key : Key) (handle : Handle)
    (cost : ℤ) : RedisRateLimitStore :=
  match ofLocal handle with
  | some handle => { store with fallback := store.fallback.settle key handle cost }
  | none => (redisOrFallback d store now reply (script key (settleScript now handle cost)) noop).2

/-- `uuid` is the lease Redis is asked to grant, `localUuid` the one the fallback draws. -/
def acquire (store : RedisRateLimitStore) (uuid localUuid : Handle) (reply : Reply) (now : ℤ)
    (key : Key) (limit : ℤ) (leaseSec : ℚ) : Option Handle × RedisRateLimitStore :=
  let call (redis : Redis) : Option (Option Handle) × Redis :=
    let (taken, redis) := script key (acquireScript now limit ⌈d.millis leaseSec⌉ uuid) redis
    (taken.map fun taken => if taken then some uuid else none, redis)
  let fallback (memory : InMemoryRateLimitStore) : Option Handle × InMemoryRateLimitStore :=
    let (lease, memory) := memory.acquire d localUuid now key limit leaseSec
    (lease.map markLocal, memory)
  redisOrFallback d store now reply call fallback

def release (store : RedisRateLimitStore) (reply : Reply) (now : ℤ) (key : Key) (lease : Handle) :
    RedisRateLimitStore :=
  match ofLocal lease with
  | some lease => { store with fallback := store.fallback.release key lease }
  | none => (redisOrFallback d store now reply (script key (zremLease now lease)) noop).2

end

end RedisRateLimitStore

/-! ### Callers of a store -/

/-- A call on a store.  A settlement names the call whose entry it settles, a release the call whose
slot it gives back, by their place among the calls. -/
inductive Call where
  | hit (key : Key) (limit cost : ℤ)
  | settle (key : Key) (entry : ℕ) (cost : ℤ)
  | acquire (key : Key) (limit : ℤ) (lease : ℚ)
  | release (key : Key) (slot : ℕ)
  deriving DecidableEq

/-- What the caller of a store is told. -/
inductive Answer where
  | window (allowed : Bool) (count : ℤ) (resetAfter : ℚ)
  | settled
  | slot (granted : Bool)
  | released
  deriving DecidableEq

/-- A store as its callers use it: what each operation answers and leaves, for the `n`-th call, with
handles and leases of type `η`. -/
structure Store (σ η : Type) where
  hit : ℕ → σ → ℤ → Key → ℤ → ℚ → ℤ → (Answer × Option η) × σ
  settle : ℕ → σ → ℤ → Key → η → ℤ → σ
  acquire : ℕ → σ → ℤ → Key → ℤ → ℚ → Option η × σ
  release : ℕ → σ → ℤ → Key → η → σ

/-- A store between two calls: how many calls it has had, and what it handed out at each. -/
structure Session (σ η : Type) where
  store : σ
  calls : ℕ
  handles : ℕ → Option η
  leases : ℕ → Option η

def Session.start {σ η : Type} (store : σ) : Session σ η := ⟨store, 0, fun _ => none, fun _ => none⟩

variable {σ η : Type}

/-- One call.  A caller that was handed nothing has nothing to settle or release. -/
def Store.step (port : Store σ η) (width : Key → ℚ) (s : Session σ η) :
    ℤ × Call → Answer × Session σ η
  | (now, .hit key limit cost) =>
    let ((answer, handle), store) := port.hit s.calls s.store now key limit (width key) cost
    (answer, ⟨store, s.calls + 1, Function.update s.handles s.calls handle, s.leases⟩)
  | (now, .settle key entry cost) =>
    let store := match s.handles entry with
      | none => s.store
      | some handle => port.settle s.calls s.store now key handle cost
    (.settled, { s with store := store, calls := s.calls + 1 })
  | (now, .acquire key limit lease) =>
    let (granted, store) := port.acquire s.calls s.store now key limit lease
    (.slot granted.isSome,
      ⟨store, s.calls + 1, s.handles, Function.update s.leases s.calls granted⟩)
  | (now, .release key slot) =>
    let store := match s.leases slot with
      | none => s.store
      | some lease => port.release s.calls s.store now key lease
    (.released, { s with store := store, calls := s.calls + 1 })

/-- A sequence of calls: the answers, and the store after them. -/
def Store.run (port : Store σ η) (width : Key → ℚ) :
    Session σ η → List (ℤ × Call) → List Answer × Session σ η
  | s, [] => ([], s)
  | s, call :: rest =>
    let (answer, s) := port.step width s call
    let (answers, s) := port.run width s rest
    (answer :: answers, s)

def RateLimitWindow.answer (w : RateLimitWindow) : Answer × Option Handle :=
  (.window w.allowed w.count w.resetAfter, w.handle)

/-- `InMemoryRateLimitStore` to its callers; `uuid` are the ids it draws. -/
def memoryStore (d : Doubles) (uuid : ℕ → Handle) : Store InMemoryRateLimitStore Handle where
  hit _ store now key limit width cost :=
    let (window, store) := store.hit d now key limit width cost
    (window.answer, store)
  settle _ store _ key handle cost := store.settle key handle cost
  acquire n store now key limit lease := store.acquire d (uuid (2 * n + 1)) now key limit lease
  release _ store _ key lease := store.release key lease

/-- `RedisRateLimitStore` to its callers, when Redis replies to the `n`-th call as `reply n`. -/
def redisStore (d : Doubles) (uuid : ℕ → Handle) (reply : ℕ → Reply) : Store RedisRateLimitStore Handle where
  hit n store now key limit width cost :=
    let (window, store) := store.hit d (uuid (2 * n)) (reply n) now key limit width cost
    (window.answer, store)
  settle n store now key handle cost := store.settle d (reply n) now key handle cost
  acquire n store now key limit lease :=
    store.acquire d (uuid (2 * n)) (uuid (2 * n + 1)) (reply n) now key limit lease
  release n store now key lease := store.release d (reply n) now key lease

end Otari.RateLimit

import Otari.Routing.Compiler

/-!
# Routing — Automatic — feedback for the selection of a provider

`services/routing/_automatic.py`: the health one worker keeps of each candidate, with what is in
flight on it (`AutomaticRouter`, `Worker`), and the order it puts a catalog plan in (`rank`).

A `_Health` is an object its observations go on holding after the dictionary has let it go, so
`records` is a heap of them and the dictionary maps a candidate to a place in it.  `candidate_key`
and the affinity are keyed digests, and come as such.  Instants are of one clock.
-/

namespace Otari.Routing
open Documents (get set update without)

/-! ### Ordered dictionaries -/

/-- An `OrderedDict`, oldest first. -/
abbrev OrderedDict (α : Type) := List (String × α)

def moveToEnd {α : Type} (d : OrderedDict α) (key : String) : OrderedDict α :=
  match get d key with
  | some value => without [key] d ++ [(key, value)]
  | none => d

/-! ### Health -/

def ttl : ℚ := 300
def limit : ℕ := 10000

/-- `_Health`. -/
structure Health where
  active : ℤ := 0
  /-- By mode, the smoothed latency and when it was taken. -/
  latency : OrderedDict (ℚ × ℚ) := []
  cooldown : ℚ := 0

structure AutomaticRouter where
  health : OrderedDict ℕ := []
  records : ℕ → Health := fun _ => {}
  /-- How many records were ever made: the next one's place. -/
  created : ℕ := 0
  affinities : OrderedDict (String × ℚ) := []

namespace AutomaticRouter

/-- `self.health.get(key)`. -/
def healthOf (router : AutomaticRouter) (key : String) : Option Health :=
  (get router.health key).map router.records

/-- `self.health[key] = _Health()`, in the dictionary as it stands. -/
def create (router : AutomaticRouter) (health : OrderedDict ℕ) (key : String) :
    Option ℕ × AutomaticRouter :=
  (some router.created,
    { router with
      health := set health key router.created
      records := Function.update router.records router.created {}
      created := router.created + 1 })

/-- `_health`: the record of a candidate, made where it has none; a full dictionary evicts its first
idle entry, and tracks nothing new where none is idle. -/
def healthFor (router : AutomaticRouter) (key : String) : Option ℕ × AutomaticRouter :=
  match get router.health key with
  | some record => (some record, { router with health := moveToEnd router.health key })
  | none =>
    if limit ≤ router.health.length then
      match router.health.find? fun entry => (router.records entry.2).active = 0 with
      | none => (none, router)
      | some idle => router.create (without [idle.1] router.health) key
    else router.create router.health key

/-- `forget_key`: the binding goes only while it points to this candidate. -/
def forgetKey (router : AutomaticRouter) (affinity : Option String) (key : String) :
    AutomaticRouter :=
  match affinity with
  | none => router
  | some affinity =>
    if (get router.affinities affinity).any (·.1 = key) then
      { router with affinities := without [affinity] router.affinities }
    else router

/-- A success binds the session, and the oldest bindings past the limit go. -/
def bind (router : AutomaticRouter) (affinity : String) (key : String) (now : ℚ) :
    AutomaticRouter :=
  let affinities := moveToEnd (set router.affinities affinity (key, now)) affinity
  { router with affinities := affinities.drop (affinities.length - limit) }

end AutomaticRouter

/-! ### Observations -/

/-- `AutomaticSelection`, as an observation reads it. -/
structure AutomaticSelection where
  affinity : Option String
  mode : String

structure AutomaticObservation where
  selection : AutomaticSelection
  key : String
  selector : String
  health : Option ℕ
  started : ℚ
  firstAt : Option ℚ := none
  finished : Bool := false

/-- `first_response`. -/
def AutomaticObservation.firstResponse (observation : AutomaticObservation) (now : ℚ) :
    AutomaticObservation :=
  { observation with firstAt := observation.firstAt.or (some now) }

/-- The latency a success reports, smoothed with a recent one. -/
def AutomaticObservation.latencyAt (observation : AutomaticObservation) (health : Health)
    (now : ℚ) : ℚ :=
  let elapsed := max (1 / 1000) (observation.firstAt.getD now - observation.started)
  match get health.latency observation.selection.mode with
  | some old => if now - old.2 < ttl then 4 / 5 * old.1 + 1 / 5 * elapsed else elapsed
  | none => elapsed

def AutomaticObservation.released (observation : AutomaticObservation) (health : Health) (now : ℚ)
    (success unhealthy : Bool) : Health :=
  let cooldown := if success then 0 else if unhealthy then now + 15 else health.cooldown
  let latency :=
    if success then
      set health.latency observation.selection.mode (observation.latencyAt health now, now)
    else health.latency
  { active := max 0 (health.active - 1), latency := latency, cooldown := cooldown }

def AutomaticObservation.report (observation : AutomaticObservation) (router : AutomaticRouter)
    (now : ℚ) (success unhealthy : Bool) : AutomaticRouter :=
  let router := match observation.health with
    | some record => { router with
        records := Function.update router.records record
          (observation.released (router.records record) now success unhealthy) }
    | none => router
  let router :=
    if unhealthy then router.forgetKey observation.selection.affinity observation.key else router
  match success, observation.selection.affinity with
  | true, some affinity => router.bind affinity observation.key now
  | _, _ => router

/-! ### Ranking -/

inductive Region where
  | us
  | eu
deriving DecidableEq

structure AutomaticOffering where
  region : Option Region := none
  capacity : ℕ := 1

structure RankRequest where
  plan : CompiledPlan
  sessionTtlSeconds : ℚ
  offerings : List (String × AutomaticOffering)
  costs : String → Option ℚ
  /-- The digest of the scope, the policy and the anchor, where there is an anchor. -/
  affinity : Option String
  region : Option Region
  mode : String
  own : List String
  limit : ℕ := 5
  candidateKey : Attempt → String

/-- The class of a candidate: missing price, cooldown, ownership and region mismatch, in the order a
tuple compares. -/
abbrev Class := Bool ×ₗ Bool ×ₗ Bool ×ₗ ℕ

section
variable (router : AutomaticRouter) (now : ℚ) (request : RankRequest)

def keys : List (String × String) :=
  update [] (request.plan.attempts.map fun attempt =>
    (attempt.canonical, request.candidateKey attempt))

def keyOf (selector : String) : String := (get (keys request) selector).getD ""

/-- The latencies observed within the time they count. -/
def latencies : List (String × ℚ) :=
  (keys request).filterMap fun entry =>
    (((router.healthOf entry.2).bind fun health => get health.latency request.mode).filter
      fun value => now - value.2 < ttl).map fun value => (entry.1, value.1)

/-- `statistics.median`. -/
def median (values : List ℚ) : ℚ :=
  let sorted := Select.orderBy id values
  let middle := sorted.length / 2
  if sorted.length % 2 = 1 then sorted.getD middle 0
  else (sorted.getD (middle - 1) 0 + sorted.getD middle 0) / 2

def neutral : ℚ :=
  if latencies router now request = [] then 1
  else median ((latencies router now request).map Prod.snd)

def hint (attempt : Attempt) : AutomaticOffering :=
  ((get request.offerings attempt.canonical).or
    (get request.offerings attempt.instanceName)).getD {}

/-- `group`. -/
def group (attempt : Attempt) : Class :=
  let selector := attempt.canonical
  let health := router.healthOf (keyOf request selector)
  let locality := if request.region = none ∨ (hint request attempt).region = request.region then 0
    else 1
  toLex (decide (request.costs selector = none),
    toLex (health.any fun health => now < health.cooldown,
      toLex (decide (selector ∉ request.own), locality)))

/-- The lowest price in a class, zero where none is priced. -/
def floor (bucket : Class) : ℚ :=
  let prices := (request.plan.attempts.filter fun attempt =>
    group router now request attempt = bucket).filterMap fun attempt =>
      request.costs attempt.canonical
  match prices with
  | [] => 0
  | first :: rest => rest.foldl min first

/-- `score`: the class, then price, load and latency, then the catalog's order. -/
def score (attempt : Attempt) : Class ×ₗ ℚ ×ₗ ℕ :=
  let selector := attempt.canonical
  let load := match router.healthOf (keyOf request selector) with
    | some health => (health.active : ℚ) / (hint request attempt).capacity
    | none => 0
  let neutral := neutral router now request
  let latency := min 3 (((get (latencies router now request) selector).getD neutral)
    / max neutral (1 / 1000))
  let bucket := group router now request attempt
  let floor := max (floor router now request bucket) (1 / 1000000)
  let value := match request.costs selector with
    | some cost => cost / floor
    | none => 1
  toLex (bucket, toLex (value + 1 / 2 * load + 1 / 4 * latency, attempt.position))

/-- The candidate the session is bound to, while the binding is fresh. -/
def sticky : Option String :=
  ((request.affinity.bind fun affinity => get router.affinities affinity).filter fun previous =>
    now - previous.2 < request.sessionTtlSeconds).map Prod.fst

def sorted : List Attempt :=
  Select.orderBy (score router now request) request.plan.attempts

/-- Whether an attempt is the one the session is bound to. -/
def isSticky (attempt : Attempt) : Bool :=
  sticky router now request = some (keyOf request attempt.canonical)

def mayLead (bound : Attempt) : Bool :=
  let class' := fun attempt => ofLex (group router now request attempt)
  let tail := fun attempt => ofLex (class' attempt).2
  let rest := fun attempt => ofLex (tail attempt).2
  !(tail bound).1 && (rest bound).2 = 0
    && (!(class' bound).1 || (sorted router now request).all fun attempt => (class' attempt).1)
    && (!(rest bound).1 || ((sorted router now request).head?.any fun attempt => (rest attempt).1))

def bound : Option Attempt :=
  ((sorted router now request).find? (isSticky router now request)).filter
    (mayLead router now request)

/-- The order of the candidates, the bound one moved to the front. -/
def ranked : List Attempt :=
  match bound router now request with
  | some attempt => attempt :: (sorted router now request).eraseP (isSticky router now request)
  | none => sorted router now request

/-- The attempts of a plan, numbered in its order. -/
def numbered (attempts : List Attempt) : List Attempt :=
  (attempts.zipIdx 1).map fun entry =>
    { entry.1 with
      position := entry.2
      selectionReason := if entry.2 = 1 then "catalog" else "on_failure" }

def overCap (limit : ℕ) (attempt : Attempt) : DroppedCandidate where
  selector := attempt.canonical
  reason := "over_cap"
  detail := "below the best " ++ toString limit ++ " offerings"

/-- `rank`. -/
def rank : CompiledPlan × AutomaticSelection × AutomaticRouter :=
  let ordered := ranked router now request
  ({ request.plan with
      attempts := numbered (ordered.take request.limit)
      dropped := request.plan.dropped
        ++ (ordered.drop request.limit).map (overCap request.limit) },
    ⟨request.affinity, request.mode⟩,
    match request.affinity with
    | some affinity =>
      if (bound router now request).isNone then
        { router with affinities := without [affinity] router.affinities }
      else router
    | none => router)

end

/-! ### A worker -/

/-- The router of one worker, and every observation made in it. -/
structure Worker where
  router : AutomaticRouter := {}
  observations : List AutomaticObservation := []

/-- What happens in a worker.  `close` is a `finish` of each observation of a selection. -/
inductive Act where
  | start (now : ℚ) (selection : AutomaticSelection) (key selector : String)
  | firstResponse (now : ℚ) (observation : ℕ)
  | finish (now : ℚ) (observation : ℕ) (success unhealthy : Bool)
  | forget (selection : AutomaticSelection) (key : String)
  | rank (now : ℚ) (request : RankRequest)

/-- `health.active += 1`, on a record that is tracked. -/
def AutomaticRouter.occupy (router : AutomaticRouter) : Option ℕ → AutomaticRouter
  | some record => { router with
      records := Function.update router.records record
        { router.records record with active := (router.records record).active + 1 } }
  | none => router

/-- `AutomaticSelection.start`. -/
def Worker.start (worker : Worker) (now : ℚ) (selection : AutomaticSelection)
    (key selector : String) : Worker :=
  let (health, router) := worker.router.healthFor key
  let observation : AutomaticObservation :=
    { selection := selection, key := key, selector := selector, health := health, started := now }
  { router := router.occupy health, observations := worker.observations ++ [observation] }

/-- `AutomaticObservation.finish`, which only the first call of does anything. -/
def Worker.finish (worker : Worker) (now : ℚ) (i : ℕ) (success unhealthy : Bool) : Worker :=
  match worker.observations[i]? with
  | none => worker
  | some observation =>
    if observation.finished then worker
    else
      { router := observation.report worker.router now success unhealthy
        observations := worker.observations.set i { observation with finished := true } }

def Worker.step (worker : Worker) : Act → Worker
  | .start now selection key selector => worker.start now selection key selector
  | .firstResponse now i =>
    match worker.observations[i]? with
    | none => worker
    | some observation =>
      { worker with
        observations := worker.observations.set i (observation.firstResponse now) }
  | .finish now i success unhealthy => worker.finish now i success unhealthy
  | .forget selection key =>
    { worker with router := worker.router.forgetKey selection.affinity key }
  | .rank now request => { worker with router := (Routing.rank worker.router now request).2.2 }

def Worker.run (acts : List Act) : Worker := acts.foldl Worker.step {}

end Otari.Routing

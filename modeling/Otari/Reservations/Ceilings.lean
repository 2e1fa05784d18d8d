import Otari.Reservations.Store

/-!
# Reservations — Ceilings — the ceilings a request must pass

`services/budgets/_scoped_enforcement.py`.  A request holds on each ceiling of the scopes it bills
to, one conditional UPDATE and one commit a ceiling.  Where one refuses, the holds already taken are
given back; where the database fails one, they are given back as far as the database lets them.
-/

namespace Otari.Reservations
open Transactions Raising Raising.Program

/-! ### Which ceilings -/

/-- A ceiling on one of a request's scopes, as a request reads it. -/
structure ApplicableCeiling where
  id : ℕ
  scopeType : ScopeType
  providerKeyId : Option String
  periodWindow : PeriodWindow
  periodEnd : Option ℤ
  tokenLimit : Option ℤ
  requestLimit : Option ℤ

/-- What a hold needs to know of a ceiling. -/
structure ApplicableBudget where
  id : ℕ
  scopeType : ScopeType
  providerKeyId : Option String
  tokenLimit : Option ℤ
  requestLimit : Option ℤ
deriving DecidableEq

def ApplicableBudget.capsCounts (b : ApplicableBudget) : Bool :=
  b.tokenLimit.isSome || b.requestLimit.isSome

def toApplicableBudget (c : ApplicableCeiling) : ApplicableBudget :=
  ⟨c.id, c.scopeType, c.providerKeyId, c.tokenLimit, c.requestLimit⟩

/-- What a request bills to: the ids of the ceilings on its scopes, and the provider it goes to. -/
structure BudgetScopeRequest where
  ceilingIds : List ℕ
  providerInstance : Option String
  ceilingIds_nodup : ceilingIds.Nodup

/-- `list_applicable`: the ceilings with the budgets they name. -/
def Store.listApplicable (s : Store) (ids : List ℕ) : List ApplicableCeiling :=
  ids.filterMap fun id => do
    let c ← s.ceilings id
    let b ← s.budgets c.budgetId
    return ⟨id, c.scopeType, c.providerKeyId, b.periodWindow, c.periodEnd, b.caps.tokenLimit,
      b.caps.requestLimit⟩

/-- Most specific first, provider-narrowed before aggregate within a scope, then the id. -/
def ApplicableCeiling.key (c : ApplicableCeiling) : ℕ ×ₗ ℕ ×ₗ ℕ :=
  toLex (scopePrecedence c.scopeType, toLex (if c.providerKeyId.isSome then 0 else 1, c.id))

/-- The ceilings that cap every provider or this one, in reservation order. -/
def getProviderCeilings (ceilings : List ApplicableCeiling) (provider : Option String) :
    List ApplicableCeiling :=
  (ceilings.filter fun c => c.providerKeyId.isNone || c.providerKeyId = provider).insertionSort
    fun a b => a.key ≤ b.key

/-! ### Windows -/

variable (db : Db)

def periodEnded (now : ℤ) (periodEnd : Option ℤ) : Bool := periodEnd.any (· ≤ now)

/-- Start a fresh window on a ceiling whose period has run out.  An unknown alignment leaves its
window in place. -/
def rollEnded (now : ℤ) (c : ApplicableCeiling) : Call Unit :=
  if periodEnded now c.periodEnd then
    match c.periodWindow now with
    | .ok window =>
      execute db .roll fun s =>
        s.rollPeriod c.id now (window.elim now Prod.fst) (window.map Prod.snd)
    | .error _ => pure ()
  else pure ()

def rollEndedWindows (now : ℤ) : List ApplicableCeiling → Call Unit
  | [] => pure ()
  | c :: rest => do
    rollEnded db now c
    rollEndedWindows now rest

/-- Roll any window that has ended, and commit; the budgets a request must pass, in order. -/
def rollAndListApplicable (ceilings : List ApplicableCeiling) : Call (List ApplicableBudget) := do
  let now ← now db
  (if ceilings.any fun c => periodEnded now c.periodEnd then do
    rollEndedWindows db now ceilings
    commit db .roll
  else pure ())
  return ceilings.map toApplicableBudget

/-! ### Holds -/

/-- Let this transaction's commit return before its flush: a statement like any other. -/
def deferCommitFlush (kind : Kind) : Call Unit := execute db kind id

/-- `release` inside a surrounding transaction. -/
def releaseUncommitted (kind : Kind) (ids : List ℕ) (h : HeldAmounts) : Call Unit :=
  if ids ≠ [] ∧ h.Some then execute db kind fun s => s.releaseHolds ids h else pure ()

/-- Give a held amount back to every ceiling that took it, and commit. -/
def release (kind : Kind) (ids : List ℕ) (h : HeldAmounts) : Call Unit :=
  if ids ≠ [] ∧ h.Some then do
    deferCommitFlush db kind
    execute db kind fun s => s.releaseHolds ids h
    commit db kind
  else pure ()

def Ask.held (ask : Ask) : HeldAmounts := ⟨ask.amount.getD 0, ask.tokens, ask.requests⟩

def holdOn (ask : Ask) (id : ℕ) : Call Bool := do
  deferCommitFlush db .ceilingHold
  let held ← statement db .ceilingHold fun s => s.holdCeiling id ask
  commit db .ceilingHold
  return held

/-- The loop of `reserve`, with the ceilings that have taken their hold. -/
def reserveFrom (ask : Ask) (taken : List ℕ) :
    List ApplicableBudget → Call (Option ApplicableBudget)
  | [] => pure none
  | budget :: rest => do
    let held ← onDatabaseError (holdOn db ask budget.id) fun e => do
      suppress do
        rollback db .giveBack
        release db .giveBack taken ask.held
      raise (.database e)
    if held then reserveFrom ask (taken ++ [budget.id]) rest
    else do
      release db .giveBack taken ask.held
      return some budget

/-- Hold a request on every ceiling, or hold none and name the one that refused. -/
def reserve (budgets : List ApplicableBudget) (ask : Ask) : Call (Option ApplicableBudget) :=
  reserveFrom db ask [] budgets

/-- `blocked_axis`: the capped axis that left this ceiling no room. -/
def ceilingBlockedAxis (budget : ApplicableBudget) (ask : Ask) : Call BlockedAxis := do
  let usage ← query db .lookup fun s => s.getUsage budget.id
  return refusedAxis usage ask

end Otari.Reservations

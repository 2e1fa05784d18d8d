import Otari.Support.Cell
import Otari.Support.Threads
import Otari.Reservations.Ceilings

/-!
# Reservations — ResetLogs — settlements and the rolls of a user's window, interleaved

`_cas_reset_user_budget` against `reconcile_reservation`, act by act, on one user's row.  A
settlement adds to `spend` and commits.  A roll reads the row, and later writes it under a condition
that only the first of several finds true; it logs the spend it *read*, and sets the spend to zero.

* `Kept`: what was settled is the spend and the logged spends, and each window that has ended was
  ended by one log, which began the next.
* `no_spend_lost`: in every interleaving where each roll that wins finds the spend it read.
* `settlement_vanishes`: a settlement between the read and the write is in neither.

The columns of the row that neither the sum nor the condition reads are left out, and so is the rest
of a settlement's transaction.  A program may fail after any act; its transaction is then undone.
-/

namespace Otari.ResetLogs
open Threads Function
open List

/-! ### The store -/

structure UserRow where
  spend : ℤ
  nextBudgetResetAt : Option ℤ
deriving DecidableEq

structure BudgetResetLog where
  previousSpend : ℤ
  resetAt : ℤ
  nextResetAt : Option ℤ
deriving DecidableEq

/-- The row, the logs that are committed, oldest first, and what each settlement that committed
added. -/
structure Store where
  user : Cell UserRow
  logs : List BudgetResetLog
  settled : List ℤ

inductive Label where
  | read
  /-- The conditional update, with the row read before it. -/
  | reset (read : UserRow) (now : ℤ)
  | add | commit | rollback

abbrev Run (α : Type) := Prog Label Store α

/-! ### Acts -/

def UserRow.ended (row : UserRow) (now : ℤ) : Bool :=
  Reservations.periodEnded now row.nextBudgetResetAt

/-- The read of `reserve_budget`, which takes no lock. -/
def readUser : Run UserRow := .read .read fun t s => s.user.visible t

/-- The compare-and-swap, and whether it matched. -/
def resetUser (read : UserRow) (now : ℤ) (next : Option ℤ) : Run Bool :=
  .one (.reset read now) fun t s =>
    (s.user.updateWhere t (·.ended now) fun row =>
      { row with spend := 0, nextBudgetResetAt := next }).map fun r => (r.1, { s with user := r.2 })

/-- `User.spend + spent`. -/
def addSpend (amount : ℤ) : Run Bool :=
  .one .add fun t s =>
    (s.user.updateWhere t (fun _ => true) fun row => { row with spend := row.spend + amount }).map
      fun r => (r.1, { s with user := r.2 })

/-- The commit of a transaction, with the logs and the settlements it wrote. -/
def commit (logs : List BudgetResetLog) (settled : List ℤ) : Run Unit :=
  .one .commit fun t s => some ((), ⟨s.user.commit t, s.logs ++ logs, s.settled ++ settled⟩)

def rollback : Run Unit :=
  .one .rollback fun t s => some ((), { s with user := s.user.rollback t })

/-! ### Programs -/

/-- The window a budget has at an instant, or none for one that never resets. -/
abbrev Cadence := ℤ → Option (ℤ × ℤ)

variable (cadence : Cadence)

/-- `_cas_reset_user_budget`. -/
def casResetUserBudget (user : UserRow) (now : ℤ) : Run Unit := do
  let next := (cadence now).map Prod.snd
  let rolled ← resetUser user now next
  if rolled then commit [⟨user.spend, now, next⟩] [] else commit [] []

def rollDue (now : ℤ) : Run Unit := do
  let user ← readUser
  if user.ended now then casResetUserBudget cadence user now else pure ()

/-- `reconcile_reservation`, on the user's row. -/
def settle (actualCost : ℚ) (countsTowardBudget : Bool) : Run Unit := do
  let spent := max actualCost 0
  if spent ≠ 0 ∧ countsTowardBudget = true then do
    let _ ← addSpend (Reservations.bindUsd spent)
    commit [] [Reservations.bindUsd spent]
  else commit [] []

/-- What runs, and the number of acts it fails after, if it does. -/
inductive Op where
  | roll (now : ℤ) (fails : Option ℕ)
  | settle (actualCost : ℚ) (countsTowardBudget : Bool) (fails : Option ℕ)

def failing (program : Run Unit) : Option ℕ → Run Unit
  | none => program
  | some n => Prog.cut rollback n program

def program : Op → Run Unit
  | .roll now fails => failing (rollDue cadence now) fails
  | .settle actualCost counts fails => failing (settle actualCost counts) fails

/-- Any number of rolls and settlements on a user's row. -/
def system (start : UserRow) : System Op Empty Label Store Unit where
  program := program cadence
  env := fun e _ => nomatch e
  start := fun s => s = ⟨⟨start, none⟩, [], []⟩

/-! ### What is kept -/

/-- The windows between two ends, each ended by one log once it had run out, and the next begun by
it. -/
def Linked : Option ℤ → List BudgetResetLog → Option ℤ → Prop
  | ends, [], last => ends = last
  | ends, log :: logs, last =>
    Reservations.periodEnded log.resetAt ends = true ∧ Linked log.nextResetAt logs last

/-- **Nothing settled is lost**, and each window that ended was logged once. -/
structure Kept (start : UserRow) (s : Store) : Prop where
  total : start.spend + s.settled.sum =
    s.user.committed.spend + (s.logs.map BudgetResetLog.previousSpend).sum
  linked : Linked start.nextBudgetResetAt s.logs s.user.committed.nextBudgetResetAt

/-- A roll that wins finds the spend it read. -/
def FindsRead : Label → Store → Prop
  | .reset read now, s => s.user.latest.ended now = true → s.user.latest.spend = read.spend
  | _, _ => True

instance instDecidableFindsRead (l : Label) (s : Store) : Decidable (FindsRead l s) := by
  cases l with
  | reset read now => exact inferInstanceAs (Decidable (_ → _))
  | read | add | commit | rollback => exact isTrue trivial

theorem Linked.append {ends mid last : Option ℤ} {logs : List BudgetResetLog}
    {log : BudgetResetLog} (h : Linked ends logs mid)
    (hlog : Reservations.periodEnded log.resetAt mid = true) (hnext : log.nextResetAt = last) :
    Linked ends (logs ++ [log]) last := by
  induction logs generalizing ends with
  | nil =>
    obtain rfl : ends = mid := h
    exact ⟨hlog, hnext⟩
  | cons first rest ih => exact ⟨h.1, ih h.2⟩

/-! ### Every interleaving -/

/-- Where a thread is: what its open transaction has written on the row. -/
inductive Phase where
  | idle
  | rolling (log : BudgetResetLog)
  | settling (amount : ℤ)

/-- The version a thread's transaction has written, of a committed row. -/
def Phase.Wrote (row : UserRow) : Phase → UserRow → Prop
  | .idle, _ => False
  | .rolling log, new => row.ended log.resetAt = true ∧ row.spend = log.previousSpend ∧
      new = ⟨0, log.nextResetAt⟩
  | .settling amount, new => new = { row with spend := row.spend + amount }

/-- **The invariant.**  The row is held by the thread that has written it, and by no other. -/
structure Inv (start : UserRow) (n : ℕ) (s : Store) (γ : ℕ → Phase) : Prop where
  kept : Kept start s
  holder : ∀ t row, s.user.dirty = some (t, row) → (γ t).Wrote s.user.committed row
  holds : ∀ t, γ t ≠ .idle → ∃ row, s.user.dirty = some (t, row)

variable {cadence} {start : UserRow} {t n : ℕ} {s : Store} {γ : ℕ → Phase} {g : Phase}

abbrev Sound {α : Type} (start : UserRow) (t : ℕ) (Q : α → Phase → Prop) (p : Run α)
    (g : Phase) : Prop :=
  Safe (Inv start) FindsRead t Q p g

theorem Inv.free (h : Inv start n s γ) (hg : γ t = .idle) (row : UserRow) :
    s.user.dirty ≠ some (t, row) := by
  intro hdirty
  have hwrote := h.holder t row hdirty
  rwa [hg] at hwrote

theorem Inv.clean (h : Inv start n s γ) (hg : γ t = .idle) (hfree : s.user.heldByOther t = false) :
    s.user.dirty = none := by
  rcases hd : s.user.dirty with _ | ⟨u, row⟩
  · rfl
  · have hu : u = t := by simpa [Cell.heldByOther, hd] using hfree
    exact absurd (hu ▸ hd) (h.free hg row)

/-- **A write.**  The thread's phase says what it has written. -/
theorem Inv.write (h : Inv start n s γ) (hclean : s.user.dirty = none) {g' : Phase} {row : UserRow}
    (hwrote : g'.Wrote s.user.committed row) :
    Inv start n { s with user := s.user.write t row } (update γ t g') := by
  refine ⟨⟨h.kept.total, h.kept.linked⟩, fun u row' hdirty => ?_, fun u hu => ?_⟩
  · cases hdirty
    rwa [update_self]
  · by_cases hut : u = t
    · exact ⟨row, by rw [hut]; rfl⟩
    · rw [update_of_ne hut] at hu
      obtain ⟨row', hrow'⟩ := h.holds u hu
      rw [hclean] at hrow'
      cases hrow'

theorem Inv.ended (h : Inv start n s γ) {s' : Store} (hkept : Kept start s')
    (hdirty : (∀ row, s.user.dirty ≠ some (t, row)) ∧ s'.user = s.user ∨
      (∃ row, s.user.dirty = some (t, row)) ∧ s'.user.dirty = none) :
    Inv start n s' (update γ t .idle) := by
  rcases hdirty with ⟨hfree, hsame⟩ | ⟨⟨row, hrow⟩, hnone⟩
  · refine ⟨hkept, fun u row' hrow' => ?_, fun u hu => ?_⟩
    · rw [hsame] at hrow' ⊢
      have hut : u ≠ t := fun e => hfree row' (e ▸ hrow')
      rw [update_of_ne hut]
      exact h.holder u row' hrow'
    · by_cases hut : u = t
      · rw [hut, update_self] at hu
        exact absurd rfl hu
      · rw [update_of_ne hut] at hu
        rw [hsame]
        exact h.holds u hu
  · refine ⟨hkept, fun u row' hrow' => ?_, fun u hu => ?_⟩
    · rw [hnone] at hrow'
      cases hrow'
    · by_cases hut : u = t
      · rw [hut, update_self] at hu
        exact absurd rfl hu
      · rw [update_of_ne hut] at hu
        obtain ⟨row', hrow'⟩ := h.holds u hu
        rw [hrow] at hrow'
        cases hrow'
        exact absurd rfl hut

/-- The logs and settlements of a phase, as its transaction commits them. -/
def Phase.logs : Phase → List BudgetResetLog
  | .rolling log => [log]
  | .idle | .settling _ => []

def Phase.settled : Phase → List ℤ
  | .settling amount => [amount]
  | .idle | .rolling _ => []

theorem Inv.commits (h : Inv start n s γ) :
    Kept start ⟨s.user.commit t, s.logs ++ (γ t).logs, s.settled ++ (γ t).settled⟩ := by
  have htotal := h.kept.total
  cases hg : γ t with
  | idle =>
    rw [Phase.logs, Phase.settled, append_nil, append_nil,
      Cell.commit_of_free (h.free hg)]
    exact h.kept
  | rolling log =>
    obtain ⟨row, hrow⟩ := h.holds t (by rw [hg]; exact Phase.noConfusion)
    have hwrote := h.holder t row hrow
    rw [hg] at hwrote
    obtain ⟨hended, hspend, rfl⟩ := hwrote
    rw [Cell.commit_of_dirty hrow]
    refine ⟨?_, h.kept.linked.append hended rfl⟩
    simp only [Phase.logs, Phase.settled, append_nil, map_append, sum_append,
      map_cons, map_nil, sum_singleton]
    linarith
  | settling amount =>
    obtain ⟨row, hrow⟩ := h.holds t (by rw [hg]; exact Phase.noConfusion)
    have hwrote := h.holder t row hrow
    rw [hg] at hwrote
    obtain rfl : row = { s.user.committed with spend := s.user.committed.spend + amount } :=
      hwrote
    rw [Cell.commit_of_dirty hrow]
    refine ⟨?_, by simpa only [Phase.logs, append_nil] using h.kept.linked⟩
    simp only [Phase.logs, Phase.settled, append_nil, sum_append, sum_singleton]
    linarith

theorem Inv.own (h : Inv start n s γ) (t : ℕ) :
    (∀ row, s.user.dirty ≠ some (t, row)) ∨ ∃ row, s.user.dirty = some (t, row) := by
  by_cases hg : γ t = .idle
  · exact .inl (h.free hg)
  · exact .inr (h.holds t hg)

/-- **A commit** of what a thread has written, with its log or its settlement. -/
theorem sound_commit {logs : List BudgetResetLog} {settled : List ℤ} (hlogs : logs = g.logs)
    (hsettled : settled = g.settled) :
    Sound start t (fun _ g' => g' = .idle) (commit logs settled) g := by
  subst hlogs hsettled
  intro n s γ b s' _ h hg _ hf
  cases hf
  subst hg
  refine ⟨.idle, h.ended h.commits ?_, rfl⟩
  rcases h.own t with hfree | ⟨row, hrow⟩
  · exact .inl ⟨hfree, Cell.commit_of_free hfree⟩
  · refine .inr ⟨⟨row, hrow⟩, ?_⟩
    show (s.user.commit t).dirty = none
    rw [Cell.commit_of_dirty hrow]

theorem sound_rollback : Sound start t (fun _ g' => g' = .idle) rollback g := by
  intro n s γ b s' _ h hg _ hf
  cases hf
  refine ⟨.idle, h.ended ⟨?_, ?_⟩ ?_, rfl⟩
  · rw [Cell.committed_rollback]
    exact h.kept.total
  · rw [Cell.committed_rollback]
    exact h.kept.linked
  · rcases h.own t with hfree | ⟨row, hrow⟩
    · exact .inl ⟨hfree, Cell.rollback_of_free hfree⟩
    · refine .inr ⟨⟨row, hrow⟩, ?_⟩
      show (s.user.rollback t).dirty = none
      rw [Cell.rollback_of_dirty hrow]

theorem sound_readUser : Sound start t (fun _ g' => g' = .idle) readUser .idle :=
  Safe.read fun _ _ _ _ _ _ _ => rfl

/-- **The compare-and-swap**: one that matches finds the row committed, and the spend it read. -/
theorem sound_resetUser (read : UserRow) (now : ℤ) (next : Option ℤ) :
    Sound start t (fun rolled g' => g' = if rolled then .rolling ⟨read.spend, now, next⟩ else .idle)
      (resetUser read now next) .idle := by
  intro n s γ b s' _ h hg hC hf
  obtain ⟨⟨matched, cell⟩, hupdate, heq⟩ := Option.map_eq_some_iff.mp hf
  cases heq
  rcases Cell.updateWhere_cases hupdate with ⟨rfl, hfree, hended, rfl⟩ | ⟨rfl, rfl, -⟩
  · have hclean := h.clean hg hfree
    have hlatest : s.user.latest = s.user.committed := by rw [Cell.latest, hclean]
    have hspend : s.user.latest.spend = read.spend := hC hended
    rw [hlatest] at hended hspend
    exact ⟨.rolling ⟨read.spend, now, next⟩, h.write hclean ⟨hended, hspend, rfl⟩, rfl⟩
  · refine ⟨.idle, ?_, rfl⟩
    rwa [← hg, update_eq_self]

theorem sound_addSpend (amount : ℤ) :
    Sound start t (fun _ g' => g' = .settling amount) (addSpend amount) .idle := by
  intro n s γ b s' _ h hg _ hf
  obtain ⟨⟨matched, cell⟩, hupdate, heq⟩ := Option.map_eq_some_iff.mp hf
  cases heq
  rcases Cell.updateWhere_cases hupdate with ⟨rfl, hfree, -, rfl⟩ | ⟨-, -, hno⟩
  · have hclean := h.clean hg hfree
    refine ⟨.settling amount, h.write hclean ?_, rfl⟩
    rw [Phase.Wrote, Cell.latest, hclean]
  · cases hno

theorem sound_rollDue (now : ℤ) : Sound start t (fun _ _ => True) (rollDue cadence now) .idle := by
  refine Safe.bind sound_readUser fun user g hg => ?_
  subst hg
  split
  · refine Safe.bind (sound_resetUser user now _) fun rolled g hg => ?_
    subst hg
    cases rolled with
    | true => exact (sound_commit rfl rfl).mono fun _ _ _ => trivial
    | false => exact (sound_commit rfl rfl).mono fun _ _ _ => trivial
  · trivial

theorem sound_settle (actualCost : ℚ) (counts : Bool) :
    Sound start t (fun _ _ => True) (settle actualCost counts) .idle := by
  rw [settle]
  split
  · refine Safe.bind (sound_addSpend _) fun _ g hg => ?_
    subst hg
    exact (sound_commit rfl rfl).mono fun _ _ _ => trivial
  · exact (sound_commit rfl rfl).mono fun _ _ _ => trivial

theorem sound_failing {p : Run Unit} (h : Sound start t (fun _ _ => True) p .idle) :
    ∀ fails, Sound start t (fun _ _ => True) (failing p fails) .idle
  | none => h
  | some n => h.cut (fun _ => sound_rollback.mono fun _ _ _ => trivial) n

theorem sound_program (op : Op) (t : ℕ) :
    Sound start t (fun _ _ => True) (program cadence op) .idle := by
  cases op with
  | roll now fails => exact sound_failing (sound_rollDue now) fails
  | settle actualCost counts fails => exact sound_failing (sound_settle actualCost counts) fails

/-- **No settled dollar is lost.**  In every interleaving of settlements and rolls, any of which may
fail anywhere, where each roll that wins finds the spend it read: what was settled is the user's
spend and what the logs recorded, and each window that ended was logged once. -/
theorem no_spend_lost (cadence : Cadence) (start : UserRow) {m : Machine Op Label Store Unit}
    (h : Reach (system cadence start) FindsRead m) : Kept start m.store := by
  obtain ⟨γ, hinv, -, -⟩ := h.safe .idle (I := Inv start) (Q := fun _ _ _ => True)
    (fun s hs => by
      subst hs
      refine ⟨⟨by simp, rfl⟩, fun t row hrow => ?_, fun t ht => absurd rfl ht⟩
      cases hrow)
    (fun _ _ _ hinv _ => ⟨hinv.kept, hinv.holder, hinv.holds⟩)
    (fun _ _ _ e _ _ _ => nomatch e)
    fun op t => sound_program op t
  exact hinv.kept

/-! ### Runs -/

def minuteCadence : Cadence := fun now => some (now, now + 60000000)

/-- Ten dollars spent in a window that ended. -/
def spentRow : UserRow := ⟨10000000, some 0⟩

/-- Two rolls read the row and both write it, and five dollars are settled before the reads or
between the reads and the writes. -/
def twoRolls (between : Bool) : List (Choice Op Empty) :=
  let settlement : List (Choice Op Empty) := [.run 0, .run 0]
  let reads : List (Choice Op Empty) := [.run 1, .run 2]
  [.spawn (.settle 5 true none), .spawn (.roll 1 none), .spawn (.roll 1 none)] ++
    (if between then reads ++ settlement else settlement ++ reads) ++
    [.run 1, .run 1, .run 2, .run 2]

theorem no_spend_lost_two : ∃ m, Reach (system minuteCadence spentRow) FindsRead m ∧
      m.store.logs = [⟨15000000, 1, some 60000001⟩] ∧ Kept spentRow m.store := by
  have hrun : ((Machine.mk ⟨⟨spentRow, none⟩, [], []⟩ []).exec (system minuteCadence spentRow)
      FindsRead (twoRolls false)).map (fun m => m.store.logs) =
        some [⟨15000000, 1, some 60000001⟩] := by
    decide +kernel
  obtain ⟨m, hm, hlogs⟩ := Option.map_eq_some_iff.mp hrun
  have hreach := Reach.of_exec (.start rfl) hm
  exact ⟨m, hreach, hlogs, no_spend_lost minuteCadence spentRow hreach⟩

/-- **A settlement vanishes.**  Five dollars are settled after the rolls have read the row: the log
records ten, the row keeps none. -/
theorem settlement_vanishes : ∃ m, Reach (system minuteCadence spentRow) (fun _ _ => True) m ∧
      m.store.settled = [5000000] ∧ m.store.user.committed.spend = 0 ∧
      m.store.logs = [⟨10000000, 1, some 60000001⟩] ∧ ¬ Kept spentRow m.store := by
  have hrun : ((Machine.mk ⟨⟨spentRow, none⟩, [], []⟩ []).exec (system minuteCadence spentRow)
      (fun _ _ => True) (twoRolls true)).map
        (fun m => (m.store.settled, m.store.user.committed.spend, m.store.logs)) =
        some ([5000000], 0, [⟨10000000, 1, some 60000001⟩]) := by
    decide +kernel
  obtain ⟨m, hm, hstate⟩ := Option.map_eq_some_iff.mp hrun
  obtain ⟨hsettled, hrest⟩ := Prod.mk.inj hstate
  obtain ⟨hspend, hlogs⟩ := Prod.mk.inj hrest
  refine ⟨m, Reach.of_exec (.start rfl) hm, hsettled, hspend, hlogs, fun h => ?_⟩
  have htotal := h.total
  rw [hsettled, hspend, hlogs] at htotal
  revert htotal
  decide

end Otari.ResetLogs

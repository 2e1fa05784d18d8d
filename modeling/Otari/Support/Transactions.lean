import Otari.Support.Raising

/-!
# Support — Transactions — programs over a database that may fail

A session holds the state committed and the state its open transaction has written.  The server
answers each statement and each commit: it is done, it failed, or a commit landed and its answer was
lost.  A failed statement breaks the transaction, and a transaction that is not committed is undone.
`Session.Open` says what is committed and what is written, and each way to build a program has one
rule for it; a kind of statement that never fails (`Calm`) has a rule with no error.
-/

namespace Transactions
open Raising Raising.Program

/-- What the database answers. -/
inductive Reply (δ : Type) where
  | done
  | failed (e : δ)
  /-- The commit took effect, and its answer was lost. -/
  | landed (e : δ)

/-- The answer to each statement of a kind, what a statement of a broken transaction raises, and the
time as each is asked. -/
structure Server (Λ δ : Type) where
  reply : Λ → ℕ → Reply δ
  broken : δ
  clock : ℕ → ℤ

/-- What a program raises: an error of the database, or one of its own. -/
inductive Failure (δ η : Type) where
  | database (e : δ)
  | raised (e : η)

structure Session (σ : Type) where
  committed : σ
  /-- The state the open transaction sees. -/
  current : σ
  /-- Whether a statement of the open transaction failed. -/
  broken : Bool
  asked : ℕ

def Session.start (s : σ) : Session σ := ⟨s, s, false, 0⟩

abbrev Tx (δ η σ α : Type) := Program (Failure δ η) (Session σ) α

section
variable {Λ δ η σ α : Type} (server : Server Λ δ)

def statement (l : Λ) (f : σ → α × σ) : Tx δ η σ α := fun s =>
  if s.broken then (.error (.database server.broken), s)
  else
    match server.reply l s.asked with
    | .done =>
      (.ok (f s.current).1, { s with current := (f s.current).2, asked := s.asked + 1 })
    | .failed e | .landed e =>
      (.error (.database e), { s with broken := true, asked := s.asked + 1 })

def execute (l : Λ) (f : σ → σ) : Tx δ η σ Unit := statement server l fun s => ((), f s)

def query (l : Λ) (f : σ → α) : Tx δ η σ α := statement server l fun s => (f s, s)

/-- A commit.  That of a broken transaction undoes it. -/
def commit (l : Λ) : Tx δ η σ Unit := fun s =>
  let written := if s.broken then s.committed else s.current
  match server.reply l s.asked with
  | .done => (.ok (), ⟨written, written, false, s.asked + 1⟩)
  | .failed e => (.error (.database e), ⟨s.committed, s.committed, false, s.asked + 1⟩)
  | .landed e => (.error (.database e), ⟨written, written, false, s.asked + 1⟩)

/-- A rollback, which undoes the transaction also where it raises. -/
def rollback (l : Λ) : Tx δ η σ Unit := fun s =>
  match server.reply l s.asked with
  | .done => (.ok (), ⟨s.committed, s.committed, false, s.asked + 1⟩)
  | .failed e | .landed e =>
    (.error (.database e), ⟨s.committed, s.committed, false, s.asked + 1⟩)

def now : Tx δ η σ ℤ := fun s => (.ok (server.clock s.asked), s)

end

section
variable {δ η σ α : Type}

/-- `try … except` of every error of the database. -/
def onDatabaseError (x : Tx δ η σ α) (handler : δ → Tx δ η σ α) : Tx δ η σ α :=
  x.rescue fun
    | .database e => some (handler e)
    | .raised _ => none

/-- `suppress` of every error of the database. -/
def suppress (x : Tx δ η σ Unit) : Tx δ η σ Unit := onDatabaseError x fun _ => pure ()

end

/-! ### What a session has written -/

variable {Λ δ η σ α : Type} {server : Server Λ δ}

/-- A kind of statement that never fails. -/
def Server.Calm (server : Server Λ δ) (l : Λ) : Prop := ∀ n, server.reply l n = .done

/-- No commit that reports failure took effect. -/
def Server.Honest (server : Server Λ δ) : Prop := ∀ l n e, server.reply l n ≠ .landed e

/-- An error that a kind of statement may end in. -/
def Server.Raises (server : Server Λ δ) (l : Λ) (e : δ) : Prop :=
  ∃ n, server.reply l n = .failed e ∨ server.reply l n = .landed e

theorem Server.Calm.not_raises {l : Λ} (h : server.Calm l) (e : δ) : ¬ server.Raises l e := by
  rintro ⟨n, hn | hn⟩ <;> rw [h n] at hn <;> cases hn

/-- `c` is committed and `w` written. -/
def Session.Open (s : Session σ) (c w : σ) : Prop :=
  s.committed = c ∧ s.current = w ∧ s.broken = false

/-- Nothing is written that is not committed. -/
abbrev Session.At (s : Session σ) (c : σ) : Prop := s.Open c c

theorem Session.at_start (c : σ) : (Session.start c).At c := ⟨rfl, rfl, rfl⟩

/-- What a program raises is a database error, of which and of the session after it `P` holds. -/
def Fails (P : δ → Session σ → Prop) (e : Failure δ η) (s : Session σ) : Prop :=
  ∃ d, e = .database d ∧ P d s

variable {s : Session σ} {c w : σ} {l : Λ}

theorem Fails.mono {P P' : δ → Session σ → Prop} {e : Failure δ η} (h : Fails P e s)
    (hP : ∀ d, P d s → P' d s) : Fails P' e s :=
  ⟨h.choose, h.choose_spec.1, hP _ h.choose_spec.2⟩

theorem ends_statement (h : s.Open c w) (f : σ → α × σ) :
    (statement server l f : Tx δ η σ α).Ends s (fun a s' => a = (f w).1 ∧ s'.Open c (f w).2)
      (Fails fun d s' => s'.committed = c ∧ server.Raises l d) := by
  obtain ⟨rfl, rfl, hbroken⟩ := h
  rw [Ends, statement, hbroken, if_neg Bool.false_ne_true]
  rcases hreply : server.reply l s.asked with _ | e | e
  · exact ⟨rfl, rfl, rfl, rfl⟩
  · exact ⟨e, rfl, rfl, _, .inl hreply⟩
  · exact ⟨e, rfl, rfl, _, .inr hreply⟩

theorem ends_statement_breaks (h : s.Open c w) (f : σ → α × σ) :
    (statement server l f : Tx δ η σ α).Ends s (fun _ s' => s'.Open c (f w).2)
      (Fails fun _ s' => s'.committed = c ∧ s'.broken = true) := by
  obtain ⟨rfl, rfl, hbroken⟩ := h
  rw [Ends, statement, hbroken, if_neg Bool.false_ne_true]
  rcases server.reply l s.asked with _ | e | e
  · exact ⟨rfl, rfl, rfl⟩
  · exact ⟨e, rfl, rfl, rfl⟩
  · exact ⟨e, rfl, rfl, rfl⟩

theorem ends_broken (h : s.broken = true) (f : σ → α × σ) {Q : α → Session σ → Prop} :
    (statement server l f : Tx δ η σ α).Ends s Q (Fails fun _ s' => s' = s) := by
  rw [Ends, statement, if_pos h]
  exact ⟨_, rfl, rfl⟩

theorem ends_execute (h : s.Open c w) (f : σ → σ) :
    (execute server l f : Tx δ η σ Unit).Ends s (fun _ s' => s'.Open c (f w))
      (Fails fun d s' => s'.committed = c ∧ server.Raises l d) :=
  (ends_statement h fun s => ((), f s)).mono (fun _ _ h => h.2) fun _ _ h => h

theorem ends_query (h : s.Open c w) (f : σ → α) :
    (query server l f : Tx δ η σ α).Ends s (fun a s' => a = f w ∧ s'.Open c w)
      (Fails fun d s' => s'.committed = c ∧ server.Raises l d) :=
  ends_statement h fun s => (f s, s)

theorem ends_commit (hserver : server.Honest) (h : s.Open c w) :
    (commit server l : Tx δ η σ Unit).Ends s (fun _ s' => s'.At w)
      (Fails fun d s' => s'.At c ∧ server.Raises l d) := by
  obtain ⟨rfl, rfl, hbroken⟩ := h
  rw [Ends, commit, hbroken]
  rcases hreply : server.reply l s.asked with _ | e | e
  · exact ⟨rfl, rfl, rfl⟩
  · exact ⟨e, rfl, ⟨rfl, rfl, rfl⟩, _, .inl hreply⟩
  · exact absurd hreply (hserver l s.asked e)

theorem ends_commit_any (h : s.Open c w) :
    (commit server l : Tx δ η σ Unit).Ends s (fun _ s' => s'.At w)
      (Fails fun _ s' => s'.At c ∨ s'.At w) := by
  obtain ⟨rfl, rfl, hbroken⟩ := h
  rw [Ends, commit, hbroken]
  rcases server.reply l s.asked with _ | e | e
  · exact ⟨rfl, rfl, rfl⟩
  · exact ⟨e, rfl, .inl ⟨rfl, rfl, rfl⟩⟩
  · exact ⟨e, rfl, .inr ⟨rfl, rfl, rfl⟩⟩

theorem ends_commit_landed (h : s.Open c w) :
    (commit server l : Tx δ η σ Unit).Ends s (fun _ s' => s'.At w)
      (Fails fun d s' => s'.At c ∨ s'.At w ∧ ∃ n, server.reply l n = .landed d) := by
  obtain ⟨rfl, rfl, hbroken⟩ := h
  rw [Ends, commit, hbroken]
  rcases hreply : server.reply l s.asked with _ | e | e
  · exact ⟨rfl, rfl, rfl⟩
  · exact ⟨e, rfl, .inl ⟨rfl, rfl, rfl⟩⟩
  · exact ⟨e, rfl, .inr ⟨⟨rfl, rfl, rfl⟩, _, hreply⟩⟩

theorem ends_commit_raises (h : s.Open c w) :
    (commit server l : Tx δ η σ Unit).Ends s (fun _ s' => s'.At w)
      (Fails fun d _ => server.Raises l d) := by
  obtain ⟨rfl, rfl, hbroken⟩ := h
  rw [Ends, commit, hbroken]
  rcases hreply : server.reply l s.asked with _ | e | e
  · exact ⟨rfl, rfl, rfl⟩
  · exact ⟨e, rfl, _, .inl hreply⟩
  · exact ⟨e, rfl, _, .inr hreply⟩

theorem ends_rollback : (rollback server l : Tx δ η σ Unit).Ends s (fun _ s' => s'.At s.committed)
      (Fails fun d s' => s'.At s.committed ∧ server.Raises l d) := by
  rw [Ends, rollback]
  rcases hreply : server.reply l s.asked with _ | e | e
  · exact ⟨rfl, rfl, rfl⟩
  · exact ⟨e, rfl, ⟨rfl, rfl, rfl⟩, _, .inl hreply⟩
  · exact ⟨e, rfl, ⟨rfl, rfl, rfl⟩, _, .inr hreply⟩

variable {E : Failure δ η → Session σ → Prop}

@[simp] theorem ends_now {Q : ℤ → Session σ → Prop} :
    (now server).Ends s Q E ↔ Q (server.clock s.asked) s := Iff.rfl

/-! ### Statements that never fail -/

section
variable {E : Failure δ η → Session σ → Prop} (hcalm : server.Calm l)
include hcalm

theorem Fails.elim {P : Session σ → Prop} {e : Failure δ η}
    (h : Fails (fun d s => P s ∧ server.Raises l d) e s) : E e s :=
  absurd h.choose_spec.2.2 (hcalm.not_raises _)

theorem calm_statement (h : s.Open c w) (f : σ → α × σ) :
    (statement server l f).Ends s (fun a s' => a = (f w).1 ∧ s'.Open c (f w).2) E :=
  (ends_statement h f).mono (fun _ _ h => h) fun _ _ h => h.elim hcalm

theorem calm_execute (h : s.Open c w) (f : σ → σ) :
    (execute server l f).Ends s (fun _ s' => s'.Open c (f w)) E :=
  (ends_execute h f).mono (fun _ _ h => h) fun _ _ h => h.elim hcalm

theorem calm_commit (h : s.Open c w) : (commit server l).Ends s (fun _ s' => s'.At w) E := by
  obtain ⟨rfl, rfl, hbroken⟩ := h
  rw [Ends, commit, hbroken, hcalm]
  exact ⟨rfl, rfl, rfl⟩

theorem calm_rollback : (rollback server l).Ends s (fun _ s' => s'.At s.committed) E :=
  ends_rollback.mono (fun _ _ h => h) fun _ _ h => h.elim hcalm

end

/-! ### Errors of the database -/

/-- **Handling.**  Where a program raises only database errors, its handler takes over from what
they leave. -/
theorem ends_onDatabaseError {x : Tx δ η σ α} {handler : δ → Tx δ η σ α} {Q : α → Session σ → Prop}
    {P : Session σ → Prop} (hx : x.Ends s Q (Fails fun _ s' => P s'))
    (hhandler : ∀ d s', P s' → (handler d).Ends s' Q E) :
    (onDatabaseError x handler).Ends s Q E := by
  rw [onDatabaseError, ends_rescue]
  refine hx.mono (fun _ _ h => h) fun e s' he => ?_
  obtain ⟨d, rfl, hs'⟩ := he
  exact hhandler d s' hs'

theorem ends_suppress {x : Tx δ η σ Unit} {Q : Unit → Session σ → Prop}
    (hx : x.Ends s Q fun _ _ => False) : (suppress x).Ends s Q E := by
  rw [suppress, onDatabaseError, ends_rescue]
  exact hx.mono (fun _ _ h => h) fun _ _ h => h.elim

theorem ends_suppress_rollback :
    (suppress (rollback server l)).Ends s (fun _ s' => s'.At s.committed) E :=
  ends_onDatabaseError (ends_rollback.mono (fun _ _ h => h) fun _ _ he => he.mono fun _ hd => hd.1)
    fun _ _ h => h

/-! ### Where a program returns -/

/-- Where the program returns `Q` holds, whatever it may raise. -/
def Leads {α : Type} (x : Tx δ η σ α) (s : Session σ) (Q : α → Session σ → Prop) : Prop :=
  x.Ends s Q fun _ _ => True

section
variable {α β : Type} {x : Tx δ η σ α} {Q Q' : α → Session σ → Prop}

theorem Leads.mono (h : Leads x s Q) (hQ : ∀ a s', Q a s' → Q' a s') : Leads x s Q' :=
  Ends.mono h hQ fun _ _ h => h

theorem Leads.bind {f : α → Tx δ η σ β} {R : β → Session σ → Prop} (h : Leads x s Q)
    (hf : ∀ a s', Q a s' → Leads (f a) s' R) : Leads (x >>= f) s R := by
  rw [Leads, ends_bind]
  exact h.mono hf

theorem leads_any (x : Tx δ η σ α) (s : Session σ) : Leads x s fun _ _ => True := by
  rw [Leads, Ends]
  split <;> trivial

theorem Leads.rescue {handler : Failure δ η → Option (Tx δ η σ α)} (h : Leads x s Q)
    (hhandler : ∀ e program s', handler e = some program → Leads program s' fun _ _ => False) :
    Leads (x.rescue handler) s Q := by
  rw [Leads, ends_rescue]
  refine Ends.mono h (fun _ _ h => h) fun e s' _ => ?_
  cases hhandled : handler e with
  | none => trivial
  | some program => exact (hhandler e program s' hhandled).mono fun _ _ h => h.elim

theorem Leads.onDatabaseError {handler : δ → Tx δ η σ α} (h : Leads x s Q)
    (hhandler : ∀ d s', Leads (handler d) s' fun _ _ => False) :
    Leads (onDatabaseError x handler) s Q :=
  h.rescue fun e program s' hprogram => by
    cases e with
    | database d =>
      cases hprogram
      exact hhandler d s'
    | raised e => cases hprogram

end

end Transactions

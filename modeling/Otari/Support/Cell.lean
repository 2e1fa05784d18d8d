import Mathlib

/-!
# Support — Cell — a row under row locking

A row of a database that reads committed versions: the version every reader sees, and the one an
open transaction has written and not committed.  A writer holds the row until it commits; a
conditional update waits for the writer of a row whose committed version matches its condition, and
is then decided on the version the writer left.
-/

/-- A row: its committed version, and the version written by the thread whose transaction holds
it. -/
structure Cell (α : Type) where
  committed : α
  dirty : Option (ℕ × α) := none

namespace Cell
variable {α : Type}

/-- The version last written, committed or not. -/
def latest (c : Cell α) : α :=
  match c.dirty with
  | some (_, a) => a
  | none => c.committed

/-- The version a thread reads: its own write, or the committed one. -/
def visible (c : Cell α) (t : ℕ) : α :=
  match c.dirty with
  | some (u, a) => if u = t then a else c.committed
  | none => c.committed

def heldByOther (c : Cell α) (t : ℕ) : Bool :=
  match c.dirty with
  | some (u, _) => u ≠ t
  | none => false

/-- Whether this thread's transaction has written the row. -/
def heldBy (c : Cell α) (t : ℕ) : Bool :=
  match c.dirty with
  | some (u, _) => u = t
  | none => false

def write (c : Cell α) (t : ℕ) (a : α) : Cell α :=
  { c with dirty := some (t, a) }

/-- `SELECT … FOR UPDATE`: waits for the row, and holds it. -/
def lock (c : Cell α) (t : ℕ) : Option (α × Cell α) :=
  if c.heldByOther t then none else some (c.visible t, c.write t (c.visible t))

/-- `UPDATE … WHERE`: whether the row matched, and the row. -/
def updateWhere (c : Cell α) (t : ℕ) (p : α → Bool) (f : α → α) : Option (Bool × Cell α) :=
  if c.heldByOther t then
    if p c.committed then none else some (false, c)
  else if p (c.visible t) then some (true, c.write t (f (c.visible t)))
  else some (false, c)

def commit (c : Cell α) (t : ℕ) : Cell α :=
  if c.heldBy t then ⟨c.latest, none⟩ else c

def rollback (c : Cell α) (t : ℕ) : Cell α :=
  if c.heldBy t then ⟨c.committed, none⟩ else c

/-! ### What each step leaves -/

@[simp] theorem latest_write (c : Cell α) (t : ℕ) (a : α) : (c.write t a).latest = a := rfl

@[simp] theorem committed_write (c : Cell α) (t : ℕ) (a : α) :
    (c.write t a).committed = c.committed := rfl

variable {c : Cell α} {t : ℕ}

theorem dirty_of_heldBy (h : c.heldBy t = true) : ∃ a, c.dirty = some (t, a) := by
  rcases c with ⟨a, _ | ⟨u, b⟩⟩
  · cases h
  · exact ⟨b, by rw [of_decide_eq_true h]⟩

variable {a : α}

theorem heldBy_of_dirty (h : c.dirty = some (t, a)) : c.heldBy t = true := by
  rw [heldBy, h]
  exact decide_eq_true rfl

theorem heldBy_iff : c.heldBy t = true ↔ ∃ a, c.dirty = some (t, a) :=
  ⟨dirty_of_heldBy, fun ⟨_, h⟩ => heldBy_of_dirty h⟩

theorem heldBy_unique {u : ℕ} (ht : c.heldBy t = true) (hu : c.heldBy u = true) : t = u := by
  obtain ⟨a, ha⟩ := dirty_of_heldBy ht
  obtain ⟨b, hb⟩ := dirty_of_heldBy hu
  rw [ha] at hb
  cases hb
  rfl

theorem commit_of_dirty (h : c.dirty = some (t, a)) : c.commit t = ⟨a, none⟩ := by
  rw [commit, if_pos (heldBy_of_dirty h), latest, h]

theorem commit_of_free (h : ∀ a, c.dirty ≠ some (t, a)) : c.commit t = c := by
  rw [commit, if_neg]
  intro hheld
  obtain ⟨a, ha⟩ := dirty_of_heldBy hheld
  exact h a ha

theorem rollback_of_dirty (h : c.dirty = some (t, a)) : c.rollback t = ⟨c.committed, none⟩ := by
  rw [rollback, if_pos (heldBy_of_dirty h)]

theorem rollback_of_free (h : ∀ a, c.dirty ≠ some (t, a)) : c.rollback t = c := by
  rw [rollback, if_neg]
  intro hheld
  obtain ⟨a, ha⟩ := dirty_of_heldBy hheld
  exact h a ha

@[simp] theorem committed_rollback (c : Cell α) (t : ℕ) :
    (c.rollback t).committed = c.committed := by
  rw [rollback]
  split <;> rfl

theorem dirty_commit {u : ℕ} (h : (c.commit t).dirty = some (u, a)) : u ≠ t ∧ c.commit t = c := by
  by_cases hheld : ∃ b, c.dirty = some (t, b)
  · obtain ⟨b, hb⟩ := hheld
    rw [commit_of_dirty hb] at h
    cases h
  · have hfree : ∀ b, c.dirty ≠ some (t, b) := fun b hb => hheld ⟨b, hb⟩
    have hsame := commit_of_free hfree
    rw [hsame] at h
    exact ⟨fun e => hfree a (e ▸ h), hsame⟩

theorem dirty_rollback {u : ℕ} (h : (c.rollback t).dirty = some (u, a)) :
    u ≠ t ∧ c.rollback t = c := by
  by_cases hheld : ∃ b, c.dirty = some (t, b)
  · obtain ⟨b, hb⟩ := hheld
    rw [rollback_of_dirty hb] at h
    cases h
  · have hfree : ∀ b, c.dirty ≠ some (t, b) := fun b hb => hheld ⟨b, hb⟩
    have hsame := rollback_of_free hfree
    rw [hsame] at h
    exact ⟨fun e => hfree a (e ▸ h), hsame⟩

theorem heldBy_commit {u : ℕ} (hu : u ≠ t) (h : c.heldBy u = true) : c.commit t = c :=
  commit_of_free fun _ ha => hu (heldBy_unique h (heldBy_of_dirty ha))

theorem heldBy_rollback {u : ℕ} (hu : u ≠ t) (h : c.heldBy u = true) : c.rollback t = c :=
  rollback_of_free fun _ ha => hu (heldBy_unique h (heldBy_of_dirty ha))

theorem visible_eq_latest (h : c.heldByOther t = false) : c.visible t = c.latest := by
  rcases c with ⟨a, _ | ⟨u, b⟩⟩
  · rfl
  · have hu : u = t := by simpa [heldByOther] using h
    simp [visible, latest, hu]

/-- **What a conditional update did**: it matched the last version and wrote it, or left the row. -/
theorem updateWhere_cases {c' : Cell α} {p : α → Bool} {f : α → α} {b : Bool}
    (h : c.updateWhere t p f = some (b, c')) :
    (b = true ∧ c.heldByOther t = false ∧ p c.latest = true ∧ c' = c.write t (f c.latest)) ∨
    (b = false ∧ c' = c ∧ p (c.visible t) = false) := by
  rw [updateWhere] at h
  split at h
  · rename_i hheld
    split at h
    · cases h
    · rename_i hp
      cases h
      refine .inr ⟨rfl, rfl, ?_⟩
      rcases c with ⟨a, _ | ⟨u, b⟩⟩
      · simp [heldByOther] at hheld
      · have hu : u ≠ t := by simpa [heldByOther] using hheld
        simpa [visible, hu] using hp
  · rename_i hfree
    rw [Bool.not_eq_true] at hfree
    split at h
    · rename_i hp
      cases h
      rw [visible_eq_latest hfree] at hp ⊢
      exact .inl ⟨rfl, hfree, hp, rfl⟩
    · rename_i hp
      cases h
      exact .inr ⟨rfl, rfl, by simpa using hp⟩

end Cell

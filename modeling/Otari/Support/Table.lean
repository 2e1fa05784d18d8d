import Otari.Support.Cell

/-!
# Support — Table — a table of rows under row locking

A table is a `Cell` for each key, empty where there is no row.  A statement reads the rows its
transaction sees, waits for the rows other transactions hold, and writes; the transaction's commit
and rollback end the writes of all its statements.  `keys` lists the rows there may be, for a
statement that looks for them.
-/

/-- A table: every key not listed has no row. -/
structure Table (K R : Type) where
  keys : List K
  row : K → Cell (Option R)
  nodup : keys.Nodup
  covers : ∀ k, k ∉ keys → row k = { committed := none }

namespace Cell
variable {R : Type}

/-- Whether no transaction knows of the row. -/
def blank (c : Cell (Option R)) : Bool :=
  c.committed.isNone && c.dirty.isNone

/-- Whether an insert of the key meets a row, where that is decided: it waits for the transaction
that inserts or deletes one. -/
def occupied (c : Cell (Option R)) (t : ℕ) : Option Bool :=
  if c.heldByOther t then
    if c.committed.isSome && c.latest.isSome then some true else none
  else some (c.visible t).isSome

/-- `FOR KEY SHARE`: whether there is a row to refer to, where that is decided: it waits for the
transaction that deletes it. -/
def referable (c : Cell (Option R)) (t : ℕ) : Option Bool :=
  if c.heldByOther t && c.committed.isSome && c.latest.isNone then none
  else some (c.visible t).isSome

theorem of_occupied_eq_false {c : Cell (Option R)} {t : ℕ} (h : c.occupied t = some false) :
    c.heldByOther t = false ∧ c.visible t = none := by
  rw [occupied] at h
  split at h
  · split at h <;> cases h
  · rename_i hheld
    exact ⟨by simpa using hheld, by simpa using h⟩

theorem commit_cases (c : Cell (Option R)) (t : ℕ) :
    (∃ a, c.dirty = some (t, a) ∧ c.commit t = ⟨a, none⟩) ∨
      (∀ a, c.dirty ≠ some (t, a)) ∧ c.commit t = c := by
  by_cases h : ∃ a, c.dirty = some (t, a)
  · obtain ⟨a, ha⟩ := h
    exact .inl ⟨a, ha, commit_of_dirty ha⟩
  · have hfree : ∀ a, c.dirty ≠ some (t, a) := fun a ha => h ⟨a, ha⟩
    exact .inr ⟨hfree, commit_of_free hfree⟩

theorem rollback_cases (c : Cell (Option R)) (t : ℕ) :
    (∃ a, c.dirty = some (t, a) ∧ c.rollback t = ⟨c.committed, none⟩) ∨
      (∀ a, c.dirty ≠ some (t, a)) ∧ c.rollback t = c := by
  by_cases h : ∃ a, c.dirty = some (t, a)
  · obtain ⟨a, ha⟩ := h
    exact .inl ⟨a, ha, rollback_of_dirty ha⟩
  · have hfree : ∀ a, c.dirty ≠ some (t, a) := fun a ha => h ⟨a, ha⟩
    exact .inr ⟨hfree, rollback_of_free hfree⟩

variable {α : Type}

theorem visible_of_dirty {c : Cell α} {t : ℕ} {a : α} (h : c.dirty = some (t, a)) :
    c.visible t = a := by
  simp [visible, h]

theorem visible_of_free {c : Cell α} {t : ℕ} (h : ∀ a, c.dirty ≠ some (t, a)) :
    c.visible t = c.committed := by
  rcases c with ⟨a, _ | ⟨u, b⟩⟩
  · rfl
  · have hu : u ≠ t := fun e => h b (by rw [e])
    simp [visible, hu]

theorem heldBy_write (c : Cell α) (t : ℕ) (a : α) : (c.write t a).heldBy t = true := by
  simp [heldBy, write]

theorem dirty_write {c : Cell α} {t u : ℕ} {a b : α} :
    (c.write t a).dirty = some (u, b) ↔ u = t ∧ b = a := by
  simp [write, eq_comm]

theorem dirty_of_not_heldByOther {c : Cell (Option R)} {t u : ℕ} {a : Option R}
    (h : c.heldByOther t = false) (hd : c.dirty = some (u, a)) : u = t := by
  simpa [heldByOther, hd] using h

end Cell

namespace Table
variable {K R : Type}

def empty : Table K R :=
  ⟨[], fun _ => { committed := none }, List.nodup_nil, fun _ _ => rfl⟩

/-- The committed row. -/
def get (T : Table K R) (k : K) : Option R := (T.row k).committed

/-- The row as a transaction sees it. -/
def seen (T : Table K R) (t : ℕ) (k : K) : Option R := (T.row k).visible t

@[simp] theorem get_empty (k : K) : (empty : Table K R).get k = none := rfl

/-- Whether another transaction holds one of the rows. -/
def lockedOut (T : Table K R) (t : ℕ) (ks : List K) : Bool :=
  ks.any fun k => (T.row k).heldByOther t

/-- The rows a transaction sees that meet a condition. -/
def select (T : Table K R) (t : ℕ) (p : K → R → Bool) : List K :=
  T.keys.filter fun k => (T.seen t k).any (p k)

/-- Write the rows of `ks` in the transaction, each from what it sees. -/
def write [DecidableEq K] (T : Table K R) (t : ℕ) (ks : List K) (f : K → Option R → Option R) : Table K R where
  keys := ks.filter (fun k => (T.row k).blank) ∪ T.keys
  row k := if k ∈ ks then (T.row k).write t (f k (T.seen t k)) else T.row k
  nodup := T.nodup.union _
  covers k hk := by
    rw [List.mem_union_iff, not_or] at hk
    have hblank := T.covers k hk.2
    rw [if_neg]
    · exact hblank
    · intro hks
      exact hk.1 (List.mem_filter.mpr ⟨hks, by rw [hblank]; rfl⟩)

/-- `INSERT … ON CONFLICT DO UPDATE`, or `SELECT … FOR UPDATE`: the rows are the transaction's
until it ends. -/
def lock [DecidableEq K] (T : Table K R) (t : ℕ) (ks : List K) (new : R) : Option (Table K R) :=
  if T.lockedOut t ks then none
  else some (T.write t ks fun _ row => some (row.getD new))

/-- `INSERT … ON CONFLICT DO NOTHING RETURNING`: the keys that went in. -/
def insertNew [DecidableEq K] (T : Table K R) (t : ℕ) (rows : List (K × R)) :
    Option (List K × Table K R) :=
  if rows.any fun r => (T.row r.1).occupied t = none then none
  else
    let absent := rows.filter fun r => (T.row r.1).occupied t = some false
    some (absent.map Prod.fst,
      T.write t (absent.map Prod.fst) fun k _ => (rows.find? fun r => r.1 = k).map Prod.snd)

/-- `UPDATE`, or `DELETE` where `f` is `none`, of those of the rows there still are. -/
def update [DecidableEq K] (T : Table K R) (t : ℕ) (ks : List K) (f : K → R → Option R) :
    Option (List K × Table K R) :=
  if T.lockedOut t ks then none
  else
    let present := ks.filter fun k => (T.seen t k).isSome
    some (present, T.write t present fun k row => row.bind (f k))

def commit (T : Table K R) (t : ℕ) : Table K R :=
  { T with
    row := fun k => (T.row k).commit t
    covers := fun k hk => by rw [T.covers k hk]; rfl }

def rollback (T : Table K R) (t : ℕ) : Table K R :=
  { T with
    row := fun k => (T.row k).rollback t
    covers := fun k hk => by rw [T.covers k hk]; rfl }

/-- The database answers a `SELECT` with no `ORDER BY` in any order. -/
def reorder [DecidableEq K] (T : Table K R) (ks : List K) : Option (Table K R) :=
  if h : ks.Perm T.keys then
    some ⟨ks, T.row, h.nodup_iff.mpr T.nodup, fun k hk => T.covers k fun hm => hk (h.mem_iff.mpr hm)⟩
  else none

/-! ### What each statement leaves -/

variable {T T' : Table K R} {t : ℕ} {ks : List K} {k : K}

@[simp] theorem row_commit (T : Table K R) (t : ℕ) (k : K) :
    (T.commit t).row k = (T.row k).commit t := rfl

@[simp] theorem row_rollback (T : Table K R) (t : ℕ) (k : K) :
    (T.rollback t).row k = (T.row k).rollback t := rfl

theorem mem_keys (T : Table K R) {k : K} {a : R} (h : T.get k = some a) : k ∈ T.keys := by
  by_contra hk
  rw [get, T.covers k hk] at h
  cases h

theorem mem_keys_of_seen {a : R} (h : T.seen t k = some a) : k ∈ T.keys := by
  by_contra hk
  rw [seen, T.covers k hk] at h
  cases h

theorem mem_select {p : K → R → Bool} :
    k ∈ T.select t p ↔ ∃ a, T.seen t k = some a ∧ p k a = true := by
  rw [select, List.mem_filter, Option.any_eq_true]
  exact ⟨fun h => h.2, fun ⟨a, ha, hp⟩ => ⟨mem_keys_of_seen ha, a, ha, hp⟩⟩

variable {a : Option R}

theorem seen_of_dirty (h : (T.row k).dirty = some (t, a)) : T.seen t k = a :=
  Cell.visible_of_dirty h

theorem seen_of_free (h : ∀ a, (T.row k).dirty ≠ some (t, a)) : T.seen t k = T.get k :=
  Cell.visible_of_free h

theorem seen_cases (T : Table K R) (t : ℕ) (k : K) :
    (∃ a, (T.row k).dirty = some (t, a) ∧ T.seen t k = a) ∨
      (∀ a, (T.row k).dirty ≠ some (t, a)) ∧ T.seen t k = T.get k := by
  by_cases h : ∃ a, (T.row k).dirty = some (t, a)
  · obtain ⟨a, ha⟩ := h
    exact .inl ⟨a, ha, seen_of_dirty ha⟩
  · have hfree : ∀ a, (T.row k).dirty ≠ some (t, a) := fun a ha => h ⟨a, ha⟩
    exact .inr ⟨hfree, seen_of_free hfree⟩

theorem not_lockedOut : T.lockedOut t ks = false ↔ ∀ k ∈ ks, (T.row k).heldByOther t = false := by
  simp [lockedOut]

/-- **A transaction's statement**: each row is as it was, or was written by it while no other held
the row. -/
def Writes (t : ℕ) (T T' : Table K R) : Prop :=
  ∀ k, T'.row k = T.row k ∨
    (T.row k).heldByOther t = false ∧ ∃ a, T'.row k = (T.row k).write t a

theorem Writes.refl (t : ℕ) (T : Table K R) : Writes t T T := fun _ => .inl rfl

theorem Writes.committed (h : Writes t T T') (k : K) :
    (T'.row k).committed = (T.row k).committed := by
  rcases h k with heq | ⟨-, a, heq⟩
  · rw [heq]
  · rw [heq, Cell.committed_write]

variable {u : ℕ}

theorem Writes.dirty_of_ne (h : Writes t T T') (hu : u ≠ t) :
    (T'.row k).dirty = some (u, a) ↔ (T.row k).dirty = some (u, a) := by
  rcases h k with heq | ⟨hfree, b, heq⟩
  · rw [heq]
  · rw [heq]
    constructor
    · intro hd
      exact absurd (Prod.mk.inj (Option.some.inj hd)).1.symm hu
    · intro hd
      exact absurd (Cell.dirty_of_not_heldByOther hfree hd) hu

@[simp] theorem Writes.get (h : Writes t T T') (k : K) : T'.get k = T.get k := h.committed k

theorem Writes.seen_of_ne (h : Writes t T T') (hu : u ≠ t) (k : K) : T'.seen u k = T.seen u k := by
  rcases T.seen_cases u k with ⟨a, hd, hs⟩ | ⟨hfree, hs⟩
  · rw [hs, seen_of_dirty ((h.dirty_of_ne hu).mpr hd)]
  · rw [hs, seen_of_free fun a ha => hfree a ((h.dirty_of_ne hu).mp ha), h.get]

/-- **A commit**, row by row. -/
theorem commit_cases (T : Table K R) (t : ℕ) (k : K) :
    (∃ a, (T.row k).dirty = some (t, a) ∧ (T.commit t).row k = ⟨a, none⟩) ∨
      (∀ a, (T.row k).dirty ≠ some (t, a)) ∧ (T.commit t).row k = T.row k :=
  (T.row k).commit_cases t

/-- **A rollback**, row by row. -/
theorem rollback_cases (T : Table K R) (t : ℕ) (k : K) :
    (∃ a, (T.row k).dirty = some (t, a) ∧ (T.rollback t).row k = ⟨T.get k, none⟩) ∨
      (∀ a, (T.row k).dirty ≠ some (t, a)) ∧ (T.rollback t).row k = T.row k :=
  (T.row k).rollback_cases t

theorem get_rollback (T : Table K R) (t : ℕ) (k : K) : (T.rollback t).get k = T.get k :=
  Cell.committed_rollback _ _

theorem dirty_commit (h : ((T.commit t).row k).dirty = some (u, a)) :
    u ≠ t ∧ (T.row k).dirty = some (u, a) := by
  obtain ⟨hu, heq⟩ := Cell.dirty_commit h
  exact ⟨hu, by rw [← heq]; exact h⟩

theorem dirty_rollback (h : ((T.rollback t).row k).dirty = some (u, a)) :
    u ≠ t ∧ (T.row k).dirty = some (u, a) := by
  obtain ⟨hu, heq⟩ := Cell.dirty_rollback h
  exact ⟨hu, by rw [← heq]; exact h⟩

theorem get_commit_cases (T : Table K R) (t : ℕ) (k : K) :
    (∃ a, (T.row k).dirty = some (t, a) ∧ (T.commit t).get k = a) ∨
      (∀ a, (T.row k).dirty ≠ some (t, a)) ∧ (T.commit t).get k = T.get k := by
  rcases T.commit_cases t k with ⟨a, hd, heq⟩ | ⟨hfree, heq⟩
  · exact .inl ⟨a, hd, by rw [get, heq]⟩
  · exact .inr ⟨hfree, by rw [get, heq, get]⟩

theorem seen_commit_of_ne (hu : u ≠ t) (k : K) :
    (∃ a, (T.row k).dirty = some (t, a) ∧ (T.commit t).seen u k = a ∧ T.seen u k = T.get k) ∨
      (T.commit t).seen u k = T.seen u k := by
  rcases T.commit_cases t k with ⟨a, hd, heq⟩ | ⟨-, heq⟩
  · refine .inl ⟨a, hd, ?_, seen_of_free fun b hb => ?_⟩
    · rw [seen, heq]
      rfl
    · rw [hd] at hb
      exact hu (Prod.mk.inj (Option.some.inj hb)).1.symm
  · exact .inr (by rw [seen, heq, seen])

theorem seen_rollback_of_ne (hu : u ≠ t) (k : K) : (T.rollback t).seen u k = T.seen u k := by
  rcases T.rollback_cases t k with ⟨a, hd, heq⟩ | ⟨-, heq⟩
  · rw [seen, heq, seen_of_free fun b hb => ?_]
    · rfl
    · rw [hd] at hb
      exact hu (Prod.mk.inj (Option.some.inj hb)).1.symm
  · rw [seen, heq, seen]

section
variable [DecidableEq K]

@[simp] theorem row_write (T : Table K R) (t : ℕ) (ks : List K) (f : K → Option R → Option R)
    (k : K) : (T.write t ks f).row k =
      if k ∈ ks then (T.row k).write t (f k (T.seen t k)) else T.row k := rfl

theorem row_reorder (h : T.reorder ks = some T') : T'.row = T.row := by
  rw [reorder] at h
  split at h
  · cases h
    rfl
  · cases h

theorem Writes.of_write {f : K → Option R → Option R}
    (h : ∀ k ∈ ks, (T.row k).heldByOther t = false) : Writes t T (T.write t ks f) := by
  intro k
  rw [row_write]
  split
  · rename_i hk
    exact .inr ⟨h k hk, _, rfl⟩
  · exact .inl rfl

variable {new : R}

theorem lock_eq_some (h : T.lock t ks new = some T') : (∀ k ∈ ks, (T.row k).heldByOther t = false) ∧
      T' = T.write t ks fun _ row => some (row.getD new) := by
  rw [lock] at h
  split at h
  · cases h
  · rename_i hfree
    cases h
    exact ⟨not_lockedOut.mp (by simpa using hfree), rfl⟩

theorem row_lock (h : T.lock t ks new = some T') (k : K) :
    T'.row k = if k ∈ ks then (T.row k).write t (some ((T.seen t k).getD new)) else T.row k := by
  rw [(lock_eq_some h).2, row_write]

theorem heldBy_lock (h : T.lock t ks new = some T') (hk : k ∈ ks) : (T'.row k).heldBy t = true := by
  rw [row_lock h, if_pos hk]
  exact Cell.heldBy_write _ _ _

theorem writes_lock (h : T.lock t ks new = some T') : Writes t T T' := by
  obtain ⟨hfree, rfl⟩ := lock_eq_some h
  exact Writes.of_write hfree

variable {rows : List (K × R)} {r : List K × Table K R}

theorem insertNew_eq_some (h : T.insertNew t rows = some r) :
    (∀ k, k ∈ r.1 ↔ (∃ a, (k, a) ∈ rows) ∧ (T.row k).occupied t = some false) ∧
      r.2 = T.write t r.1 fun k _ => (rows.find? fun r => r.1 = k).map Prod.snd := by
  rw [insertNew] at h
  split at h
  · cases h
  · cases h
    refine ⟨fun k => ?_, rfl⟩
    simp [List.mem_filter, and_comm]

theorem of_mem_insertNew (h : T.insertNew t rows = some r) {k : K} (hk : k ∈ r.1) :
    (T.row k).heldByOther t = false ∧ T.seen t k = none ∧
      ∃ a, (k, a) ∈ rows ∧ r.2.row k = (T.row k).write t (some a) := by
  obtain ⟨hmem, heq⟩ := insertNew_eq_some h
  obtain ⟨⟨a, ha⟩, hocc⟩ := (hmem k).mp hk
  obtain ⟨hfree, hnone⟩ := Cell.of_occupied_eq_false hocc
  refine ⟨hfree, hnone, ?_⟩
  obtain ⟨b, hb⟩ : ∃ b, (rows.find? fun r => r.1 = k) = some b :=
    Option.isSome_iff_exists.mp (List.find?_isSome.mpr ⟨_, ha, by simp⟩)
  have hbk : b.1 = k := by simpa using List.find?_some hb
  refine ⟨b.2, ?_, ?_⟩
  · rw [← hbk]
    exact List.mem_of_find?_eq_some hb
  · rw [heq, row_write, if_pos hk, hb]
    rfl

theorem of_not_mem_insertNew
    (h : T.insertNew t rows = some r) {k : K} (hk : k ∉ r.1) : r.2.row k = T.row k := by
  rw [(insertNew_eq_some h).2, row_write, if_neg hk]

theorem writes_insertNew (h : T.insertNew t rows = some r) : Writes t T r.2 := by
  intro k
  by_cases hk : k ∈ r.1
  · obtain ⟨hfree, -, a, -, heq⟩ := of_mem_insertNew h hk
    exact .inr ⟨hfree, _, heq⟩
  · exact .inl (of_not_mem_insertNew h hk)

variable {f : K → R → Option R}

theorem update_eq_some (h : T.update t ks f = some r) :
    (∀ k ∈ ks, (T.row k).heldByOther t = false) ∧ r.1 = (ks.filter fun k => (T.seen t k).isSome) ∧
      r.2 = T.write t r.1 fun k row => row.bind (f k) := by
  rw [update] at h
  split at h
  · cases h
  · rename_i hfree
    cases h
    exact ⟨not_lockedOut.mp (by simpa using hfree), rfl, rfl⟩

theorem of_mem_update
    (h : T.update t ks f = some r) {k : K} (hk : k ∈ ks) {a : R} (ha : T.seen t k = some a) :
    (T.row k).heldByOther t = false ∧ r.2.row k = (T.row k).write t (f k a) := by
  obtain ⟨hfree, hmem, heq⟩ := update_eq_some h
  have hkr : k ∈ r.1 := by
    rw [hmem]
    exact List.mem_filter.mpr ⟨hk, by rw [ha]; rfl⟩
  refine ⟨hfree k hk, ?_⟩
  rw [heq, row_write, if_pos hkr, ha]
  rfl

theorem row_update_cases (h : T.update t ks f = some r) (k : K) :
    r.2.row k = T.row k ∧ (k ∈ ks → T.seen t k = none) ∨ k ∈ ks ∧ (T.row k).heldByOther t = false ∧
        ∃ a, T.seen t k = some a ∧ r.2.row k = (T.row k).write t (f k a) := by
  by_cases hk : k ∈ ks
  · cases ha : T.seen t k with
    | some a =>
      obtain ⟨hfree, hrow⟩ := of_mem_update h hk ha
      exact .inr ⟨hk, hfree, a, rfl, hrow⟩
    | none =>
      obtain ⟨-, hmem, heq⟩ := update_eq_some h
      refine .inl ⟨?_, fun _ => rfl⟩
      rw [heq, row_write, if_neg]
      rw [hmem]
      intro hkr
      simpa [ha] using (List.mem_filter.mp hkr).2
  · obtain ⟨-, hmem, heq⟩ := update_eq_some h
    refine .inl ⟨?_, fun hk' => absurd hk' hk⟩
    rw [heq, row_write, if_neg]
    rw [hmem]
    exact fun hkr => hk (List.mem_filter.mp hkr).1

theorem writes_update (h : T.update t ks f = some r) : Writes t T r.2 := by
  intro k
  rcases row_update_cases h k with ⟨heq, -⟩ | ⟨-, hfree, a, -, heq⟩
  · exact .inl heq
  · exact .inr ⟨hfree, _, heq⟩

end

end Table

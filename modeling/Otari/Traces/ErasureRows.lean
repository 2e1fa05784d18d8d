import Otari.Traces.Store

/-!
# Traces — ErasureRows — the rows of an erased user

What each open transaction may do to rows: a writer writes rows of the users whose erasure rows it
holds, and an erasure that has deleted holds every row of its user.  `Owned` says so of a table
whose rows each come from a write, `Linked` that a span belongs to its trace's user; both are kept
by every statement, every commit and every rollback.
-/

namespace Otari.Traces
open Threads Function

/-- How far a call of `purge_user` has come. -/
inductive Stage where
  | begun | locked | set | deleted
deriving DecidableEq

/-- Where a thread is: what it holds, and what it has found out. -/
inductive Phase where
  | idle
  | admitted (moment : ℕ)
  /-- A batch: the users it holds, the writes of it no erasure outranks, and the traces it has read
  the owner of. -/
  | writing (users : List UserId) (fine : List TraceWrite) (owned : List (TraceKey × Option UserId))
  | erasing (erasure : Erasure) (stage : Stage)
  /-- A sweep that forgets erasures before the cutoff, and the users it is about to. -/
  | forgetting (cutoff : Instant) (users : List UserId)

namespace Phase

def holds : Phase → UserId → Prop
  | .writing users _ _, u => u ∈ users
  | .erasing _ .begun, _ => False
  | .erasing erasure _, u => u = erasure.userId
  | .forgetting _ users, u => u ∈ users
  | _, _ => False

def deletes : Phase → UserId → Prop
  | .erasing erasure .deleted, u => u = erasure.userId
  | _, _ => False

def writes : Phase → Option UserId → Prop
  | .writing users _ _, user => ∀ u, user = some u → u ∈ users
  | _, _ => False

theorem holds_of_deletes {g : Phase} {u : UserId} (h : g.deletes u) : g.holds u := by
  cases g with
  | erasing erasure stage =>
    cases stage with
    | deleted => exact h
    | begun => exact h.elim
    | locked => exact h.elim
    | set => exact h.elim
  | idle => exact h
  | admitted moment => exact h
  | writing users fine owned => exact h.elim
  | forgetting cutoff users => exact h.elim

theorem holds_of_writes {g : Phase} {u : UserId} (h : g.writes (some u)) : g.holds u := by
  cases g with
  | writing users fine owned => exact h u rfl
  | erasing erasure stage => exact h.elim
  | idle => exact h
  | admitted moment => exact h
  | forgetting cutoff users => exact h.elim

theorem not_deletes_of_writes {g : Phase} {user : Option UserId} (h : g.writes user) (u : UserId) :
    ¬g.deletes u := by
  cases g with
  | writing users fine owned => exact id
  | erasing erasure stage => exact h.elim
  | idle => exact id
  | admitted moment => exact id
  | forgetting cutoff users => exact id

/-- Whether the thread has nothing open in the tables of traces and spans. -/
def Quiet (g : Phase) : Prop := (∀ user, ¬g.writes user) ∧ ∀ u, ¬g.deletes u

@[simp] theorem quiet_idle : Quiet .idle := ⟨fun _ h => h, fun _ h => h⟩

@[simp] theorem quiet_admitted (moment : ℕ) : Quiet (.admitted moment) :=
  ⟨fun _ h => h, fun _ h => h⟩

@[simp] theorem quiet_forgetting (cutoff : Instant) (users : List UserId) :
    Quiet (.forgetting cutoff users) :=
  ⟨fun _ h => h, fun _ h => h⟩

theorem quiet_erasing {erasure : Erasure} {stage : Stage} (h : stage ≠ .deleted) :
    Quiet (.erasing erasure stage) := by
  refine ⟨fun _ h => h, fun u hu => ?_⟩
  cases stage with
  | deleted => exact h rfl
  | begun => exact hu
  | locked => exact hu
  | set => exact hu

end Phase

/-- A user's erasure row is held by one thread. -/
def Exclusive (γ : ℕ → Phase) : Prop :=
  ∀ t t' u, (γ t).holds u → (γ t').holds u → t = t'

/-- No committed erasure of the write's user was made after it was taken in. -/
def Clean (erased : List Erasure) (trace : TraceWrite) : Prop :=
  ∀ e ∈ erased, trace.userId = some e.userId → e.moment ≤ trace.intake.moment

/-! ### The rows of a table -/

section
variable {K R : Type} {write : R → TraceWrite} {erased : List Erasure} {γ : ℕ → Phase}
  {T T' : Table K R} {t : ℕ} {g : Phase}

/-- What the open transactions have done to the rows of a table, and that its rows are clean. -/
structure Owned (T : Table K R) (write : R → TraceWrite) (erased : List Erasure)
    (γ : ℕ → Phase) : Prop where
  writes : ∀ k t r, (T.row k).dirty = some (t, some r) → (γ t).writes (write r).userId
  deletes : ∀ k t, (T.row k).dirty = some (t, none) →
    ∃ r u, T.get k = some r ∧ (write r).userId = some u ∧ (γ t).deletes u
  gone : ∀ k r u t, T.get k = some r → (write r).userId = some u → (γ t).deletes u →
    (T.row k).dirty = some (t, none)
  stored : ∀ k r, T.get k = some r → Clean erased (write r)
  unstored : ∀ k t r, (T.row k).dirty = some (t, some r) → Clean erased (write r)

namespace Owned

theorem free (h : Owned T write erased γ) (hγ : (γ t).Quiet) (k : K) (a : Option R) :
    (T.row k).dirty ≠ some (t, a) := by
  intro hd
  cases a with
  | none =>
    obtain ⟨_, u, -, -, hu⟩ := h.deletes k t hd
    exact hγ.2 u hu
  | some r => exact hγ.1 _ (h.writes k t r hd)

theorem clean_of_seen (h : Owned T write erased γ) {k : K} {r : R} (hr : T.seen t k = some r) :
    Clean erased (write r) := by
  rcases T.seen_cases t k with ⟨a, hd, hs⟩ | ⟨-, hs⟩
  · rw [hs] at hr
    exact h.unstored k t r (hr ▸ hd)
  · exact h.stored k r (hs ▸ hr)

theorem phase (h : Owned T write erased γ) (hw : ∀ user, (γ t).writes user → g.writes user)
    (hd : ∀ u, (γ t).deletes u ↔ g.deletes u) : Owned T write erased (update γ t g) := by
  have hdel : ∀ t' u, (γ t').deletes u ↔ (update γ t g t').deletes u := by
    intro t' u
    by_cases ht : t' = t
    · rw [ht, update_self, hd]
    · rw [update_of_ne ht]
  refine ⟨fun k t' r hr => ?_, fun k t' hr => ?_, fun k r u t' hr hu ht => ?_, h.stored,
    h.unstored⟩
  · by_cases ht : t' = t
    · rw [ht, update_self]
      exact hw _ (ht ▸ h.writes k t' r hr)
    · rw [update_of_ne ht]
      exact h.writes k t' r hr
  · obtain ⟨r, u, hget, hu, hdu⟩ := h.deletes k t' hr
    exact ⟨r, u, hget, hu, (hdel t' u).mp hdu⟩
  · exact h.gone k r u t' hr hu ((hdel t' u).mpr ht)

theorem phase_quiet (h : Owned T write erased γ) (hγ : (γ t).Quiet) (hd : ∀ u, ¬g.deletes u) :
    Owned T write erased (update γ t g) :=
  h.phase (fun _ hw => absurd hw (hγ.1 _)) fun u =>
    ⟨fun hu => absurd hu (hγ.2 u), fun hu => absurd hu (hd u)⟩

theorem write_step (h : Owned T write erased γ) (hT : Table.Writes t T T')
    (hγ : ∀ u, ¬(γ t).deletes u)
    (hnew : ∀ k a, (T'.row k).dirty = some (t, a) → (T.row k).dirty = some (t, a) ∨
      ∃ r, a = some r ∧ (γ t).writes (write r).userId ∧ Clean erased (write r)) :
    Owned T' write erased γ := by
  refine ⟨fun k t' r hr => ?_, fun k t' hr => ?_, fun k r u t' hr hu ht => ?_, fun k r hr => ?_,
    fun k t' r hr => ?_⟩
  · by_cases ht : t' = t
    · subst ht
      rcases hnew k _ hr with hold | ⟨r', hr', hw, -⟩
      · exact h.writes k t' r hold
      · cases hr'
        exact hw
    · exact h.writes k t' r ((hT.dirty_of_ne ht).mp hr)
  · rw [hT.get]
    by_cases ht : t' = t
    · subst ht
      rcases hnew k _ hr with hold | ⟨r', hr', -, -⟩
      · exact h.deletes k t' hold
      · cases hr'
    · exact h.deletes k t' ((hT.dirty_of_ne ht).mp hr)
  · rw [hT.get] at hr
    have htt : t' ≠ t := fun e => hγ u (e ▸ ht)
    exact (hT.dirty_of_ne htt).mpr (h.gone k r u t' hr hu ht)
  · rw [hT.get] at hr
    exact h.stored k r hr
  · by_cases ht : t' = t
    · subst ht
      rcases hnew k _ hr with hold | ⟨r', hr', -, hc⟩
      · exact h.unstored k t' r hold
      · cases hr'
        exact hc
    · exact h.unstored k t' r ((hT.dirty_of_ne ht).mp hr)

theorem delete_step {e : Erasure} (h : Owned T write erased γ) (hT : Table.Writes t T T')
    (hγ : (γ t).Quiet) (hall : ∀ k r, T.get k = some r → (write r).userId = some e.userId →
      (T'.row k).dirty = some (t, none)) (honly : ∀ k a, (T'.row k).dirty = some (t, a) →
      a = none ∧ ∃ r, T.get k = some r ∧ (write r).userId = some e.userId) :
    Owned T' write erased (update γ t (.erasing e .deleted)) := by
  refine ⟨fun k t' r hr => ?_, fun k t' hr => ?_, fun k r u t' hr hu ht => ?_, fun k r hr => ?_,
    fun k t' r hr => ?_⟩
  · by_cases ht : t' = t
    · subst ht
      cases (honly k _ hr).1
    · rw [update_of_ne ht]
      exact h.writes k t' r ((hT.dirty_of_ne ht).mp hr)
  · rw [hT.get]
    by_cases ht : t' = t
    · subst ht
      obtain ⟨-, r, hget, hu⟩ := honly k _ hr
      exact ⟨r, _, hget, hu, by rw [update_self]; exact rfl⟩
    · rw [update_of_ne ht]
      exact h.deletes k t' ((hT.dirty_of_ne ht).mp hr)
  · rw [hT.get] at hr
    by_cases htt : t' = t
    · subst htt
      rw [update_self] at ht
      obtain rfl : u = e.userId := ht
      exact hall k r hr hu
    · rw [update_of_ne htt] at ht
      exact (hT.dirty_of_ne htt).mpr (h.gone k r u t' hr hu ht)
  · rw [hT.get] at hr
    exact h.stored k r hr
  · by_cases ht : t' = t
    · subst ht
      cases (honly k _ hr).1
    · exact h.unstored k t' r ((hT.dirty_of_ne ht).mp hr)

/-- **A commit**, of a writer or of the erasure that deleted. -/
theorem commit {erased' : List Erasure} (h : Owned T write erased γ) (hex : Exclusive γ)
    (hg : g.Quiet) (hnew : ∀ e ∈ erased', e ∈ erased ∨ (γ t).deletes e.userId) :
    Owned (T.commit t) write erased' (update γ t g) := by
  have hquiet : ∀ t' u, (update γ t g t').deletes u → t' ≠ t ∧ (γ t').deletes u := by
    intro t' u hu
    by_cases ht : t' = t
    · rw [ht, update_self] at hu
      exact absurd hu (hg.2 u)
    · rw [update_of_ne ht] at hu
      exact ⟨ht, hu⟩
  refine ⟨fun k t' r hr => ?_, fun k t' hr => ?_, fun k r u t' hr hu ht => ?_,
    fun k r hr e he hu => ?_, fun k t' r hr e he hu => ?_⟩
  · obtain ⟨ht, hr⟩ := Table.dirty_commit hr
    rw [update_of_ne ht]
    exact h.writes k t' r hr
  · obtain ⟨ht, hr⟩ := Table.dirty_commit hr
    obtain ⟨r, u, hget, hu, hdel⟩ := h.deletes k t' hr
    refine ⟨r, u, ?_, hu, by rwa [update_of_ne ht]⟩
    rcases T.get_commit_cases t k with ⟨a, hd, -⟩ | ⟨-, heq⟩
    · rw [hr] at hd
      exact absurd (Prod.mk.inj (Option.some.inj hd)).1 ht
    · rw [heq, hget]
  · obtain ⟨htt, ht⟩ := hquiet t' u ht
    rcases T.commit_cases t k with ⟨a, hd, heq⟩ | ⟨-, heq⟩
    · -- a row this thread wrote is of a user it holds, so nobody is erasing that user
      rw [Table.get, heq] at hr
      obtain rfl : a = some r := hr
      have hw := h.writes k t r hd
      rw [hu] at hw
      exact absurd (hex _ _ u (Phase.holds_of_deletes ht) (Phase.holds_of_writes hw)) htt
    · rw [heq]
      rw [Table.get, heq] at hr
      exact h.gone k r u t' hr hu ht
  · rcases hnew e he with he | hdel
    · rcases T.get_commit_cases t k with ⟨a, hd, heq⟩ | ⟨-, heq⟩
      · rw [heq] at hr
        exact h.unstored k t r (hr ▸ hd) e he hu
      · rw [heq] at hr
        exact h.stored k r hr e he hu
    · rcases T.get_commit_cases t k with ⟨a, hd, heq⟩ | ⟨hfree, heq⟩
      · rw [heq] at hr
        exact absurd hdel (Phase.not_deletes_of_writes (h.writes k t r (hr ▸ hd)) _)
      · rw [heq] at hr
        exact absurd (h.gone k r _ t hr hu hdel) (hfree _)
  · obtain ⟨ht, hr⟩ := Table.dirty_commit hr
    rcases hnew e he with he | hdel
    · exact h.unstored k t' r hr e he hu
    · have hw := h.writes k t' r hr
      rw [hu] at hw
      exact absurd (hex _ _ _ (Phase.holds_of_writes hw) (Phase.holds_of_deletes hdel)) ht

theorem rollback (h : Owned T write erased γ) (hg : g.Quiet) :
    Owned (T.rollback t) write erased (update γ t g) := by
  refine ⟨fun k t' r hr => ?_, fun k t' hr => ?_, fun k r u t' hr hu ht => ?_, fun k r hr => ?_,
    fun k t' r hr => ?_⟩
  · obtain ⟨ht, hr⟩ := Table.dirty_rollback hr
    rw [update_of_ne ht]
    exact h.writes k t' r hr
  · obtain ⟨ht, hr⟩ := Table.dirty_rollback hr
    rw [update_of_ne ht, Table.get_rollback]
    exact h.deletes k t' hr
  · rw [Table.get_rollback] at hr
    by_cases htt : t' = t
    · rw [htt, update_self] at ht
      exact absurd ht (hg.2 u)
    · rw [update_of_ne htt] at ht
      have hd := h.gone k r u t' hr hu ht
      rcases T.rollback_cases t k with ⟨a, hd', -⟩ | ⟨-, heq⟩
      · rw [hd] at hd'
        exact absurd (Prod.mk.inj (Option.some.inj hd')).1 htt
      · rw [heq, hd]
  · rw [Table.get_rollback] at hr
    exact h.stored k r hr
  · exact h.unstored k t' r (Table.dirty_rollback hr).2

end Owned
end

/-! ### Spans and their traces -/

/-- A span is of its trace's user, whoever wrote either; and the traces a batch has read the owner
of keep that owner. -/
structure Linked (traces : Table TraceKey TraceRow) (spans : Table SpanKey SpanRow)
    (γ : ℕ → Phase) : Prop where
  user : ∀ k r, traces.get k = some r → r.userId = r.write.userId
  openUser : ∀ k t r, (traces.row k).dirty = some (t, some r) → r.userId = r.write.userId
  same : ∀ k t r r', (traces.row k).dirty = some (t, some r') → traces.get k = some r →
    r'.write.userId = r.write.userId
  stored : ∀ key row, spans.get key = some row →
    ∃ r, traces.get (SpanKey.trace key) = some r ∧ r.write.userId = row.write.userId
  unstored : ∀ key t row, (spans.row key).dirty = some (t, some row) →
    ∃ r, traces.seen t (SpanKey.trace key) = some r ∧ r.write.userId = row.write.userId
  owned : ∀ t users fine owned, γ t = .writing users fine owned → ∀ p ∈ owned,
    (∀ u, p.2 = some u → u ∈ users) ∧ ∃ r, traces.seen t p.1 = some r ∧ r.write.userId = p.2

namespace Linked
variable {traces traces' : Table TraceKey TraceRow} {spans spans' : Table SpanKey SpanRow}
  {erased : List Erasure} {γ : ℕ → Phase} {t : ℕ} {g : Phase}

theorem user_of_seen (h : Linked traces spans γ) {k : TraceKey} {r : TraceRow}
    (hr : traces.seen t k = some r) : r.userId = r.write.userId := by
  rcases traces.seen_cases t k with ⟨a, hd, hs⟩ | ⟨-, hs⟩
  · rw [hs] at hr
    exact h.openUser k t r (hr ▸ hd)
  · exact h.user k r (hs ▸ hr)

theorem phase (h : Linked traces spans γ)
    (hg : ∀ users fine owned, g = .writing users fine owned → ∀ p ∈ owned,
      (∀ u, p.2 = some u → u ∈ users) ∧ ∃ r, traces.seen t p.1 = some r ∧ r.write.userId = p.2) :
    Linked traces spans (update γ t g) := by
  refine { h with owned := fun t' users fine owned ht => ?_ }
  by_cases htt : t' = t
  · subst htt
    rw [update_self] at ht
    exact hg users fine owned ht
  · rw [update_of_ne htt] at ht
    exact h.owned t' users fine owned ht

/-- A statement on the traces: what it leaves in place of a trace is of the same write, and what it
makes new was nothing. -/
theorem trace_step (h : Linked traces spans γ) (hT : Table.Writes t traces traces')
    (hnew : ∀ k r, (traces'.row k).dirty = some (t, some r) →
      (∃ r₀, traces.seen t k = some r₀ ∧ r.write = r₀.write ∧ r.userId = r₀.userId) ∨
        traces.get k = none ∧ traces.seen t k = none ∧ r.userId = r.write.userId)
    (hgone : ∀ k, (traces'.row k).dirty ≠ some (t, none)) : Linked traces' spans γ := by
  have hseen : ∀ k r, traces.seen t k = some r →
      ∃ r', traces'.seen t k = some r' ∧ r'.write.userId = r.write.userId := by
    intro k r hr
    rcases traces'.seen_cases t k with ⟨a, hd, hs⟩ | ⟨hfree, hs⟩
    · cases a with
      | none => exact absurd hd (hgone k)
      | some r' =>
        refine ⟨r', hs, ?_⟩
        rcases hnew k r' hd with ⟨r₀, hr₀, hw, -⟩ | ⟨-, hnone, -⟩
        · rw [hr] at hr₀
          cases hr₀
          rw [hw]
        · rw [hr] at hnone
          cases hnone
    · refine ⟨r, ?_, rfl⟩
      rw [hs, hT.get]
      rcases traces.seen_cases t k with ⟨a, hd, -⟩ | ⟨-, hs'⟩
      · rcases hT k with heq | ⟨-, b, heq⟩
        · exact absurd (heq ▸ hd) (hfree a)
        · exact absurd (by rw [heq]; rfl) (hfree b)
      · rw [← hs', hr]
  have hsame : ∀ t' k r, traces.seen t' k = some r →
      ∃ r', traces'.seen t' k = some r' ∧ r'.write.userId = r.write.userId := by
    intro t' k r hr
    by_cases ht : t' = t
    · subst ht
      exact hseen k r hr
    · exact ⟨r, by rw [hT.seen_of_ne ht, hr], rfl⟩
  refine ⟨fun k r hr => ?_, fun k t' r hr => ?_, fun k t' r r' hr hget => ?_, fun key row hr => ?_,
    fun key t' row hr => ?_, fun t' users fine owned ht p hp => ?_⟩
  · rw [hT.get] at hr
    exact h.user k r hr
  · by_cases ht : t' = t
    · subst ht
      rcases hnew k r hr with ⟨r₀, hr₀, hw, hu⟩ | ⟨-, -, hu⟩
      · rw [hu, hw, h.user_of_seen hr₀]
      · exact hu
    · exact h.openUser k t' r ((hT.dirty_of_ne ht).mp hr)
  · rw [hT.get] at hget
    by_cases ht : t' = t
    · subst ht
      rcases hnew k r' hr with ⟨r₀, hr₀, hw, -⟩ | ⟨hnone, -, -⟩
      · rw [hw]
        rcases traces.seen_cases t' k with ⟨a, hd, hs⟩ | ⟨-, hs⟩
        · rw [hs] at hr₀
          exact h.same k t' r r₀ (hr₀ ▸ hd) hget
        · rw [hs, hget] at hr₀
          cases hr₀
          rfl
      · rw [hget] at hnone
        cases hnone
    · exact h.same k t' r r' ((hT.dirty_of_ne ht).mp hr) hget
  · rw [hT.get]
    exact h.stored key row hr
  · obtain ⟨r, hseen, hu⟩ := h.unstored key t' row hr
    obtain ⟨r', hseen', hu'⟩ := hsame t' _ r hseen
    exact ⟨r', hseen', hu'.trans hu⟩
  · obtain ⟨hin, r, hseen, hu⟩ := h.owned t' users fine owned ht p hp
    obtain ⟨r', hseen', hu'⟩ := hsame t' _ r hseen
    exact ⟨hin, r', hseen', hu'.trans hu⟩

theorem span_step (h : Linked traces spans γ) (hT : Table.Writes t spans spans')
    (hnew : ∀ key row, (spans'.row key).dirty = some (t, some row) →
      ∃ r, traces.seen t (SpanKey.trace key) = some r ∧ r.write.userId = row.write.userId) :
    Linked traces spans' γ := by
  refine { h with stored := fun key row hr => ?_, unstored := fun key t' row hr => ?_ }
  · rw [hT.get] at hr
    exact h.stored key row hr
  · by_cases ht : t' = t
    · subst ht
      exact hnew key row hr
    · exact h.unstored key t' row ((hT.dirty_of_ne ht).mp hr)

theorem delete_step (h : Linked traces spans γ) (hT : Table.Writes t traces traces')
    (hS : Table.Writes t spans spans')
    (honlyT : ∀ k a, (traces'.row k).dirty = some (t, a) → a = none)
    (honlyS : ∀ k a, (spans'.row k).dirty = some (t, a) → a = none)
    (hg : ∀ users fine owned, g ≠ .writing users fine owned) :
    Linked traces' spans' (update γ t g) := by
  have hne : ∀ {t' : ℕ} {k : TraceKey} {r : TraceRow},
      (traces'.row k).dirty = some (t', some r) → t' ≠ t := by
    rintro t' k r hr rfl
    cases honlyT k _ hr
  refine ⟨fun k r hr => ?_, fun k t' r hr => ?_, fun k t' r r' hr hget => ?_, fun key row hr => ?_,
    fun key t' row hr => ?_, fun t' users fine owned ht p hp => ?_⟩
  · rw [hT.get] at hr
    exact h.user k r hr
  · exact h.openUser k t' r ((hT.dirty_of_ne (hne hr)).mp hr)
  · rw [hT.get] at hget
    exact h.same k t' r r' ((hT.dirty_of_ne (hne hr)).mp hr) hget
  · rw [hS.get] at hr
    rw [hT.get]
    exact h.stored key row hr
  · have ht : t' ≠ t := by
      rintro rfl
      cases honlyS key _ hr
    rw [hT.seen_of_ne ht]
    exact h.unstored key t' row ((hS.dirty_of_ne ht).mp hr)
  · have htt : t' ≠ t := by
      rintro rfl
      rw [update_self] at ht
      exact hg users fine owned ht
    rw [update_of_ne htt] at ht
    rw [hT.seen_of_ne htt]
    exact h.owned t' users fine owned ht p hp

/-- **A commit.** -/
theorem commit (h : Linked traces spans γ) (hT : Owned traces TraceRow.write erased γ)
    (hS : Owned spans SpanRow.write erased γ) (hex : Exclusive γ)
    (hg : ∀ users fine owned, g ≠ .writing users fine owned) :
    Linked (traces.commit t) (spans.commit t) (update γ t g) := by
  -- what another thread saw of a trace that is not being erased, it still sees
  have hsame : ∀ t' k r, t' ≠ t → traces.seen t' k = some r →
      (∀ u, r.write.userId = some u → (γ t').holds u) →
      ∃ r', (traces.commit t).seen t' k = some r' ∧ r'.write.userId = r.write.userId := by
    intro t' k r ht hr hheld
    rcases Table.seen_commit_of_ne (T := traces) ht k with ⟨a, hd, hs, hs'⟩ | hs
    · rw [hs'] at hr
      cases a with
      | some r' => exact ⟨r', hs, h.same k t r r' hd hr⟩
      | none =>
        obtain ⟨r₀, u, hr₀, hu, hdel⟩ := hT.deletes k t hd
        rw [hr] at hr₀
        cases hr₀
        exact absurd (hex _ _ u (hheld u hu) (Phase.holds_of_deletes hdel)) ht
    · exact ⟨r, by rw [hs, hr], rfl⟩
  refine ⟨fun k r hr => ?_, fun k t' r hr => ?_, fun k t' r r' hr hget => ?_, fun key row hr => ?_,
    fun key t' row hr => ?_, fun t' users fine owned ht p hp => ?_⟩
  · rcases traces.get_commit_cases t k with ⟨a, hd, heq⟩ | ⟨-, heq⟩
    · rw [heq] at hr
      exact h.openUser k t r (hr ▸ hd)
    · exact h.user k r (heq ▸ hr)
  · exact h.openUser k t' r (Table.dirty_commit hr).2
  · obtain ⟨ht, hd⟩ := Table.dirty_commit hr
    rcases traces.get_commit_cases t k with ⟨a, hd', -⟩ | ⟨-, heq⟩
    · rw [hd] at hd'
      exact absurd (Prod.mk.inj (Option.some.inj hd')).1 ht
    · exact h.same k t' r r' hd (heq ▸ hget)
  · rcases spans.get_commit_cases t key with ⟨a, hd, heq⟩ | ⟨hfree, heq⟩
    · rw [heq] at hr
      obtain ⟨r, hseen, hu⟩ := h.unstored key t row (hr ▸ hd)
      refine ⟨r, ?_, hu⟩
      rcases traces.get_commit_cases t (SpanKey.trace key) with ⟨b, hb, hget⟩ | ⟨hb, hget⟩
      · rw [hget, ← hseen, Table.seen_of_dirty hb]
      · rw [hget, ← hseen, Table.seen_of_free hb]
    · rw [heq] at hr
      obtain ⟨r, hget, hu⟩ := h.stored key row hr
      rcases traces.get_commit_cases t (SpanKey.trace key) with ⟨b, hb, hget'⟩ | ⟨-, hget'⟩
      · cases b with
        | some r' => exact ⟨r', hget', (h.same _ t r r' hb hget).trans hu⟩
        | none =>
          -- the trace was erased, and its spans with it
          obtain ⟨r₀, u, hr₀, hu₀, hdel⟩ := hT.deletes _ t hb
          rw [hget] at hr₀
          cases hr₀
          exact absurd (hS.gone key row u t hr (hu ▸ hu₀) hdel) (hfree _)
      · exact ⟨r, by rw [hget', hget], hu⟩
  · obtain ⟨ht, hd⟩ := Table.dirty_commit hr
    obtain ⟨r, hseen, hu⟩ := h.unstored key t' row hd
    obtain ⟨r', hseen', hu'⟩ := hsame t' _ r ht hseen fun u hru => by
      have hw := hS.writes key t' row hd
      rw [← hu, hru] at hw
      exact Phase.holds_of_writes hw
    exact ⟨r', hseen', hu'.trans hu⟩
  · have htt : t' ≠ t := by
      rintro rfl
      rw [update_self] at ht
      exact hg users fine owned ht
    rw [update_of_ne htt] at ht
    obtain ⟨hin, r, hseen, hu⟩ := h.owned t' users fine owned ht p hp
    obtain ⟨r', hseen', hu'⟩ := hsame t' _ r htt hseen fun u hru => by
      rw [ht]
      exact hin u (hu ▸ hru)
    exact ⟨hin, r', hseen', hu'.trans hu⟩

theorem rollback (h : Linked traces spans γ)
    (hg : ∀ users fine owned, g ≠ .writing users fine owned) :
    Linked (traces.rollback t) (spans.rollback t) (update γ t g) := by
  refine ⟨fun k r hr => ?_, fun k t' r hr => ?_, fun k t' r r' hr hget => ?_, fun key row hr => ?_,
    fun key t' row hr => ?_, fun t' users fine owned ht p hp => ?_⟩
  · rw [Table.get_rollback] at hr
    exact h.user k r hr
  · exact h.openUser k t' r (Table.dirty_rollback hr).2
  · rw [Table.get_rollback] at hget
    exact h.same k t' r r' (Table.dirty_rollback hr).2 hget
  · rw [Table.get_rollback] at hr ⊢
    exact h.stored key row hr
  · obtain ⟨ht, hd⟩ := Table.dirty_rollback hr
    rw [Table.seen_rollback_of_ne ht]
    exact h.unstored key t' row hd
  · have htt : t' ≠ t := by
      rintro rfl
      rw [update_self] at ht
      exact hg users fine owned ht
    rw [update_of_ne htt] at ht
    rw [Table.seen_rollback_of_ne htt]
    exact h.owned t' users fine owned ht p hp

end Linked

end Otari.Traces

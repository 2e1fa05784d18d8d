import Otari.Reservations.SharedCounters

/-!
# Reservations — Orphans — the orphan job against requests

`reconcile_orphaned_holds` takes what the active rows record on a counter from one statement and
writes it in the next, while holds are in flight whose rows have not committed.

* `Clamp.Lowers`, `Clamp.Quiet`, `Clamp.Covered`: a write of the job lowers a counter, one that was
  not written within the quiet window, and not below what the active rows record at that moment.
* `reconcile_safe`: the first two hold in every interleaving, and the third wherever each row lands
  in time (`InTime`): a row that a commit makes hold more does so on counters its transaction has
  locked, or that were written within the quiet window.
* `stalled_hold_clamped`: a hold whose row lands later than that is taken for leaked.

The invariant follows one job: from its row lock to its write the counter is as it read it, and what
is recorded on the counter does not rise above what it summed.
-/

namespace Otari.Orphans
open Threads Function List
open Reservations (Axis Status)

/-! ### What is promised -/

def Clamp.Lowers (c : Clamp) : Prop := c.after.held ≤ c.before.held

/-- The counter was not written within the quiet window. -/
def Clamp.Quiet (quietSec : ℤ) (c : Clamp) : Prop :=
  ∀ written, c.before.updatedAt = some written → written < c.now - quietSec * 1000000

/-- What was lowered is no lower than what the active rows record. -/
def Clamp.Covered (c : Clamp) : Prop :=
  ∀ axis, c.after.held axis < c.before.held axis → c.recorded axis ≤ c.after.held axis

/-- The row that a commit lands holds more on a counter only where its transaction holds the
counter's row, the counter is gone, or it was written within the quiet window. -/
def InTime (quietSec : ℤ) : Label → Store → Prop
  | .statement, _ | .commit none, _ => True
  | .commit (some id), s =>
    ∀ cell ∈ s.reservations[id]?, ∀ written ∈ cell.dirty, ∀ row ∈ written.2, ∀ k ∈ row.counters,
      row.records k ≤ recordsOf cell.committed k ∨ (s.counters k).heldBy written.1 = true ∨
        s.live k = false ∨ (s.counters k).latest.quiet (s.now - quietSec * 1000000) = false

instance instDecidableInTime (quietSec : ℤ) (l : Label) (s : Store) :
    Decidable (InTime quietSec l s) := by
  rcases l with _ | _ | id
  · exact isTrue trivial
  · exact isTrue trivial
  · exact inferInstanceAs (Decidable (∀ cell ∈ s.reservations[id]?, ∀ written ∈ cell.dirty,
      ∀ row ∈ written.2, ∀ k ∈ row.counters, _ ∨ _ ∨ _ ∨ _))

/-! ### The invariant -/

/-- Where a session is: the row its transaction may have made hold more; or, in the job, its cutoff
and the counter it has locked, with the row it read and then what it summed. -/
inductive Phase where
  | idle
  | request (row : Option ℕ)
  | scanning (cutoff : ℤ)
  | locked (cutoff : ℤ) (k : Counter) (row : CounterRow)
  | summed (cutoff : ℤ) (k : Counter) (row : CounterRow) (sum : Held)

/-- A request whose transaction has made at most this row hold more. -/
def Phase.Upto (row : Option ℕ) : Phase → Prop
  | .idle => True
  | .request r => r = none ∨ r = row
  | .scanning _ | .locked _ _ _ | .summed _ _ _ _ => False

def Phase.cutoff : Phase → Option ℤ
  | .idle | .request _ => none
  | .scanning cutoff | .locked cutoff _ _ | .summed cutoff _ _ _ => some cutoff

/-- The counter a job has locked, and its row. -/
def Phase.lock : Phase → Option (Counter × CounterRow)
  | .locked _ k row | .summed _ k row _ => some (k, row)
  | .idle | .request _ | .scanning _ => none

def Phase.ended (g : Phase) : Phase :=
  match g.cutoff with
  | some cutoff => .scanning cutoff
  | none => .idle

/-- A session whose transaction has written no row of the ledger. -/
def Phase.Reads (g : Phase) : Prop := ∀ row, g ≠ .request row

/-- What a session can rely on. -/
structure Own (quietSec : ℤ) (timed : Prop) (s : Store) (t : ℕ) (g : Phase) : Prop where
  rises : ∀ (i : ℕ) (cell : Cell (Option Reservation)) (new : Option Reservation),
    s.reservations[i]? = some cell → cell.dirty = some (t, new) →
    ∀ k, ¬ recordsOf new k ≤ recordsOf cell.committed k → g = .request (some i)
  clean : g.Reads → ∀ cell ∈ s.reservations, ∀ new, cell.dirty ≠ some (t, new)
  seen : ∀ cutoff, g.cutoff = some cutoff → cutoff + quietSec * 1000000 ≤ s.now
  locked : ∀ k row, g.lock = some (k, row) →
    (s.counters k).dirty = some (t, row) ∧ s.live k = true
  quiet : ∀ k row cutoff, g.lock = some (k, row) → g.cutoff = some cutoff → row.quiet cutoff = true
  summed : timed → ∀ cutoff k row sum, g = .summed cutoff k row sum →
    s.recorded Cell.committed k ≤ sum

/-- **The invariant.** -/
structure Inv (quietSec : ℤ) (timed : Prop) (n : ℕ) (s : Store) (γ : ℕ → Phase) : Prop where
  clamps : ∀ c ∈ s.clamps, c.Lowers ∧ c.Quiet quietSec ∧ (timed → c.Covered)
  own : ∀ t, Own quietSec timed s t (γ t)

variable {quietSec : ℤ} {timed : Prop} {n t u id : ℕ} {s s' : Store} {γ : ℕ → Phase} {g g' γ' : Phase}
  {k : Counter} {α : Type}

/-- The runs in question: any, or those in which each row lands in time. -/
def Timed (timed : Prop) (quietSec : ℤ) (l : Label) (s : Store) : Prop :=
  timed → InTime quietSec l s

abbrev Sound (quietSec : ℤ) (timed : Prop) (t : ℕ) (Q : α → Phase → Prop) (p : Run α)
    (g : Phase) : Prop :=
  Safe (Inv quietSec timed) (Timed timed quietSec) t Q p g

/-- **One act**: what its session relies on after it, and that it spoils no other's. -/
theorem Inv.step (h : Inv quietSec timed n s γ)
    (hclamps : ∀ c ∈ s'.clamps, c.Lowers ∧ c.Quiet quietSec ∧ (timed → c.Covered))
    (hown : Own quietSec timed s' t g')
    (hothers : ∀ u, u ≠ t → Own quietSec timed s u (γ u) → Own quietSec timed s' u (γ u)) :
    Inv quietSec timed n s' (update γ t g') := by
  refine ⟨hclamps, fun u => ?_⟩
  by_cases hu : u = t
  · subst hu
    rwa [update_self]
  · rw [update_of_ne hu]
    exact hothers u hu (h.own u)

theorem records_eq_zero {r : Reservation} (h : k ∉ r.counters) : r.records k = 0 := by
  cases k with
  | user userId =>
    have hne : r.userId ≠ userId := fun e => h (by simp [Reservation.counters, e])
    simp [Reservation.records, hne]
  | ceiling c =>
    have hnone : r.lines.filter (·.1 = c) = [] := by
      rw [filter_eq_nil_iff]
      intro line hline heq
      refine h (mem_cons_of_mem _ (mem_map.mpr ⟨line, hline, ?_⟩))
      rw [of_decide_eq_true heq]
    simp [Reservation.records, hnone]

/-! ### What an act leaves to the others -/

/-- Another session keeps what it relies on where the rows of the ledger, as committed, record no
more, and no counter it has locked changes. -/
theorem Own.frame (h : Own quietSec timed s u g) (hnow : s.now ≤ s'.now)
    (hrows : ∀ (i : ℕ) (cell' : Cell (Option Reservation)), s'.reservations[i]? = some cell' →
      ∀ new, cell'.dirty = some (u, new) → s.reservations[i]? = some cell')
    (hlocked : ∀ k row, g.lock = some (k, row) →
      s'.counters k = s.counters k ∧ s'.live k = s.live k)
    (hrecorded : timed → ∀ k row, g.lock = some (k, row) →
      s'.recorded Cell.committed k ≤ s.recorded Cell.committed k) : Own quietSec timed s' u g := by
  refine ⟨fun i cell' new hi hdirty => ?_, fun hreads cell' hmem new hdirty => ?_,
    fun cutoff hcutoff => ?_, fun k row hlock => ?_, h.quiet, fun htimed cutoff k row sum hg => ?_⟩
  · exact h.rises i cell' new (hrows i cell' hi new hdirty) hdirty
  · obtain ⟨i, hi⟩ := mem_iff_getElem?.mp hmem
    exact h.clean hreads cell' (mem_of_getElem? (hrows i cell' hi new hdirty)) new hdirty
  · exact le_trans (h.seen cutoff hcutoff) hnow
  · obtain ⟨hcounter, hlive⟩ := hlocked k row hlock
    rw [hcounter, hlive]
    exact h.locked k row hlock
  · have hlock : g.lock = some (k, row) := by rw [hg]; rfl
    exact le_trans (hrecorded htimed k row hlock) (h.summed htimed cutoff k row sum hg)

theorem Own.ne_of_free (h : Own quietSec timed s u g) (hu : u ≠ t)
    (hfree : (s.counters k).heldByOther t = false) {k' : Counter} {row : CounterRow}
    (hlock : g.lock = some (k', row)) : k' ≠ k := by
  rintro rfl
  simp [Cell.heldByOther, (h.locked k' row hlock).1, hu] at hfree

theorem Own.counter (h : Own quietSec timed s u g) (hu : u ≠ t)
    (hfree : (s.counters k).heldByOther t = false) (cell : Cell CounterRow) (clamps : List Clamp) :
    Own quietSec timed { s with counters := update s.counters k cell, clamps := clamps } u g := by
  refine h.frame le_rfl (fun i cell' hi _ _ => hi) (fun k' row hlock => ⟨?_, rfl⟩)
    fun _ _ _ _ => le_rfl
  exact update_of_ne (h.ne_of_free hu hfree hlock) _ _

variable {cell : Cell (Option Reservation)}

theorem Own.row (h : Own quietSec timed s u g) (hu : u ≠ t)
    (hcell : s.reservations[id]? = some cell) (new : Option Reservation) : Own quietSec timed
      { s with reservations := s.reservations.set id (cell.write t new) } u g := by
  refine h.frame le_rfl (fun i cell' hi written hdirty => ?_) (fun _ _ _ => ⟨rfl, rfl⟩)
    fun _ k _ _ => le_of_eq ?_
  · rw [List.getElem?_set] at hi
    split at hi
    · split at hi
      · cases hi
        cases hdirty
        exact absurd rfl hu
      · cases hi
    · exact hi
  · have hsame : recordsOf (cell.write t new).committed k = recordsOf cell.committed k := rfl
    rw [Store.recorded, Store.recorded, map_set, hsame]
    obtain ⟨hlt, hget⟩ := List.getElem?_eq_some_iff.mp hcell
    rw [← hget, ← getElem_map (fun c : Cell (Option Reservation) => recordsOf c.committed k)
      (h := by rwa [length_map]), set_getElem_self]

theorem Own.added (h : Own quietSec timed s u g) (hu : u ≠ t) (new : Option Reservation) :
    Own quietSec timed
      { s with reservations := s.reservations ++ [⟨none, some (t, new)⟩] } u g := by
  refine h.frame le_rfl (fun i cell' hi written hdirty => ?_) (fun _ _ _ => ⟨rfl, rfl⟩)
    fun _ k _ _ => le_of_eq ?_
  · rw [List.getElem?_append] at hi
    split at hi
    · exact hi
    · rw [List.getElem?_singleton] at hi
      split at hi
      · cases hi
        cases hdirty
        exact absurd rfl hu
      · cases hi
  · simp [Store.recorded, recordsOf]

/-! ### The end of a transaction -/

@[simp] theorem Phase.lock_ended (g : Phase) : g.ended.lock = none := by
  rw [Phase.ended]
  split <;> rfl

@[simp] theorem Phase.cutoff_ended (g : Phase) : g.ended.cutoff = g.cutoff := by
  rw [Phase.ended]
  split <;> simp_all [Phase.cutoff]

theorem Phase.ne_of_lock_none {cutoff : ℤ} {row : CounterRow} {sum : Held} (h : g.lock = none) :
    g ≠ .summed cutoff k row sum := by
  rintro rfl
  cases h

theorem Own.ended (h : Own quietSec timed s t g) (hnow : s'.now = s.now)
    (hrows : ∀ cell ∈ s'.reservations, ∀ new, cell.dirty ≠ some (t, new)) :
    Own quietSec timed s' t g.ended := by
  refine ⟨fun i cell new hi hdirty => ?_, fun _ => hrows, fun cutoff hcutoff => ?_,
    fun k row hlock => ?_, fun k row cutoff hlock => ?_, fun _ cutoff k row sum hg => ?_⟩
  · exact absurd hdirty (hrows cell (mem_of_getElem? hi) new)
  · rw [hnow]
    exact h.seen cutoff (by rwa [Phase.cutoff_ended] at hcutoff)
  · rw [Phase.lock_ended] at hlock
    cases hlock
  · rw [Phase.lock_ended] at hlock
    cases hlock
  · exact absurd hg (Phase.ne_of_lock_none (Phase.lock_ended g))

variable {row : Option ℕ}

/-- What a row records, once its writer commits: no more on a counter another session has locked
and found quiet. -/
theorem Own.commit_le (h : Own quietSec timed s t g)
    (hrow : g.Upto row ∨ g.Reads) (hC : InTime quietSec (.commit row) s)
    (hother : Own quietSec timed s u γ') (hu : u ≠ t) {k : Counter} {locked : CounterRow}
    (hlock : γ'.lock = some (k, locked)) {i : ℕ} (hi : s.reservations[i]? = some cell) :
    recordsOf (cell.commit t).committed k ≤ recordsOf cell.committed k := by
  by_cases hdirty : ∃ new, cell.dirty = some (t, new)
  · obtain ⟨new, hnew⟩ := hdirty
    rw [Cell.commit_of_dirty hnew]
    by_contra hrise
    -- only the row that the commit names may record more, and that one is in time
    have hphase := h.rises i cell new hi hnew k hrise
    obtain rfl : row = some i := by
      rcases hrow with hupto | hreads
      · rw [hphase] at hupto
        rcases hupto with hnone | hsame
        · cases hnone
        · exact hsame.symm
      · exact absurd hphase (hreads _)
    obtain ⟨hcounter, hlive⟩ := hother.locked k locked hlock
    obtain ⟨cutoff, hcutoff⟩ : ∃ cutoff, γ'.cutoff = some cutoff := by
      cases γ' <;> simp_all [Phase.lock, Phase.cutoff]
    rcases new with _ | r
    · exact hrise zero_le
    · by_cases hk : k ∈ r.counters
      · rcases hC cell hi (t, some r) hnew r rfl k hk with hle | hheld | hdead | hrecent
        · exact hrise hle
        · simp [Cell.heldBy, hcounter, hu] at hheld
        · rw [hlive] at hdead
          cases hdead
        · have hseen := hother.seen cutoff hcutoff
          have hquiet := hother.quiet k locked cutoff hlock hcutoff
          rw [Cell.latest, hcounter] at hrecent
          cases hat : locked.updatedAt with
          | none => simp [CounterRow.quiet, hat] at hrecent
          | some written =>
            simp only [CounterRow.quiet, hat, decide_eq_true_eq, decide_eq_false_iff_not]
              at hquiet hrecent
            omega
      · refine hrise ?_
        rw [recordsOf, Option.elim_some, records_eq_zero hk]
        exact zero_le
  · rw [Cell.commit_of_free fun new hnew => hdirty ⟨new, hnew⟩]

/-- **A commit** of a transaction that made no row but the one it names hold more. -/
theorem sound_commit (hrow : g.Upto row ∨ g.Reads) :
    Sound quietSec timed t (fun _ g' => g' = g.ended) (commit row) g := by
  intro n s γ b s' _ h hg hC hf
  cases hf
  subst hg
  refine ⟨_, h.step h.clamps ((h.own t).ended rfl fun cell' hmem new hdirty => ?_)
    fun u hu hown => ?_, rfl⟩
  · obtain ⟨cell, -, rfl⟩ := mem_map.mp hmem
    exact (Cell.dirty_commit hdirty).1 rfl
  · refine hown.frame le_rfl (fun i cell' hi new hdirty => ?_) (fun k locked hlock => ⟨?_, rfl⟩)
      fun htimed k locked hlock => ?_
    · rw [List.getElem?_map] at hi
      obtain ⟨cell, hcell, rfl⟩ := Option.map_eq_some_iff.mp hi
      rw [(Cell.dirty_commit hdirty).2]
      exact hcell
    · exact Cell.heldBy_commit hu (Cell.heldBy_iff.mpr ⟨locked, (hown.locked k _ hlock).1⟩)
    · rw [Store.recorded, Store.recorded, map_map]
      refine sum_le_sum fun cell hmem => ?_
      obtain ⟨i, hi⟩ := mem_iff_getElem?.mp hmem
      exact (h.own t).commit_le hrow (hC htimed) hown hu hlock hi

theorem Own.idle (h : ∀ cell ∈ s.reservations, ∀ new, cell.dirty ≠ some (t, new)) :
    Own quietSec timed s t .idle :=
  ⟨fun _ cell new hi hdirty => absurd hdirty (h cell (mem_of_getElem? hi) new), fun _ => h,
    nofun, nofun, nofun, nofun⟩

theorem sound_rollback : Sound quietSec timed t (fun _ g' => g' = .idle) rollback g := by
  intro n s γ b s' _ h hg _ hf
  cases hf
  subst hg
  refine ⟨.idle, h.step h.clamps (Own.idle fun cell' hmem new hdirty => ?_)
    fun u hu hown => ?_, rfl⟩
  · obtain ⟨cell, -, rfl⟩ := mem_map.mp hmem
    exact (Cell.dirty_rollback hdirty).1 rfl
  · refine hown.frame le_rfl (fun i cell' hi new hdirty => ?_) (fun k locked hlock => ⟨?_, rfl⟩)
      fun htimed k locked hlock => ?_
    · rw [List.getElem?_map] at hi
      obtain ⟨cell, hcell, rfl⟩ := Option.map_eq_some_iff.mp hi
      rw [(Cell.dirty_rollback hdirty).2]
      exact hcell
    · exact Cell.heldBy_rollback hu (Cell.heldBy_iff.mpr ⟨locked, (hown.locked k _ hlock).1⟩)
    · rw [Store.recorded, Store.recorded, map_map]
      refine sum_le_sum fun cell _ => le_of_eq ?_
      simp

/-! ### What a request does -/

/-- A request keeps to its own rows: it ends a program with at most this row holding more. -/
def Keeps (quietSec : ℤ) (timed : Prop) (t : ℕ) (before after : Option ℕ) (p : Run α) : Prop :=
  ∀ g, g.Upto before → Sound quietSec timed t (fun _ g' => g'.Upto after) p g

theorem Phase.Upto.mono (h : g.Upto none) : g.Upto row := by
  cases g with
  | idle => trivial
  | request r =>
    rcases h with h | h
    · exact .inl h
    · exact .inl h
  | scanning cutoff | locked cutoff k row | summed cutoff k row sum => exact h.elim

theorem Phase.Upto.ended (h : g.Upto row) : g.ended = .idle := by
  cases g with
  | idle | request r => rfl
  | scanning cutoff | locked cutoff k row | summed cutoff k row sum => exact h.elim

theorem Phase.Upto.lock (h : g.Upto row) : g.lock = none := by
  cases g with
  | idle | request r => rfl
  | scanning cutoff | locked cutoff k row | summed cutoff k row sum => exact h.elim

section
variable {before mid after : Option ℕ} {β : Type}

theorem Keeps.pure {a : α} : Keeps quietSec timed t before before (pure a : Run α) :=
  fun _ hg => hg

theorem Keeps.bind {p : Run α} {f : α → Run β} (hp : Keeps quietSec timed t before mid p)
    (hf : ∀ a, Keeps quietSec timed t mid after (f a)) :
    Keeps quietSec timed t before after (p >>= f) :=
  fun g hg => Safe.bind (hp g hg) fun a g' hg' => hf a g' hg'

theorem Keeps.runIf {c : Prop} [Decidable c] {p : Run Unit}
    (hp : Keeps quietSec timed t before before p) :
    Keeps quietSec timed t before before (runIf c p) := by
  rw [Orphans.runIf]
  split
  · exact hp
  · exact .pure

theorem Keeps.eachCeiling {f : ℕ → Run Unit}
    (hf : ∀ id, Keeps quietSec timed t before before (f id)) :
    ∀ ids, Keeps quietSec timed t before before (eachCeiling f ids)
  | [] => .pure
  | id :: ids => (hf id).bind fun _ => Keeps.eachCeiling hf ids

theorem Keeps.read {f : ℕ → Store → α} :
    Keeps quietSec timed t before before (.read .statement f : Run α) :=
  fun _ hg => Safe.read fun _ _ _ _ _ _ _ => hg

theorem keeps_commit {row : Option ℕ} : Keeps quietSec timed t row none (commit row) :=
  fun g hg => (sound_commit (.inl hg)).mono fun _ g' hg' => by
    rw [hg', hg.ended]
    trivial

theorem keeps_updateCounter (k : Counter) (matched : CounterRow → Bool)
    (f : CounterRow → CounterRow) :
    Keeps quietSec timed t before before (updateCounter k matched f) := by
  intro g hupto n s γ b s' _ h hg _ hf
  obtain ⟨⟨found, cell⟩, hupdate, heq⟩ := Option.map_eq_some_iff.mp hf
  cases heq
  subst hg
  rcases Cell.updateWhere_cases hupdate with ⟨rfl, hfree, -, rfl⟩ | ⟨rfl, rfl, -⟩
  · refine ⟨γ t, h.step h.clamps ?_ fun u hu hown => hown.counter hu hfree _ _, hupto⟩
    refine (h.own t).frame le_rfl (fun i cell' hi _ _ => hi) (fun k' row hlock => ?_)
      fun _ _ _ _ => le_rfl
    rw [hupto.lock] at hlock
    cases hlock
  · refine ⟨γ t, ?_, hupto⟩
    rwa [update_eq_self, update_eq_self]

end

theorem Own.request (h : ∀ (i : ℕ) (cell : Cell (Option Reservation)) (new : Option Reservation),
      s.reservations[i]? = some cell → cell.dirty = some (t, new) →
      ∀ k, ¬ recordsOf new k ≤ recordsOf cell.committed k → row = some i) :
    Own quietSec timed s t (.request row) := by
  refine ⟨fun i cell new hi hdirty k hk => ?_, fun hreads => absurd rfl (hreads row), fun _ hc => ?_,
    fun _ _ hl => ?_, fun _ _ _ hl => ?_, fun _ _ _ _ _ hg => ?_⟩
  · rw [h i cell new hi hdirty k hk]
  · cases hc
  · cases hl
  · cases hl
  · cases hg

theorem Own.kept (h : Own quietSec timed s t g) (hg : g.Upto none) {i : ℕ}
    {new : Option Reservation}
    (hi : s.reservations[i]? = some cell) (hdirty : cell.dirty = some (t, new)) (k : Counter) :
    recordsOf new k ≤ recordsOf cell.committed k := by
  by_contra hrise
  rw [h.rises i cell new hi hdirty k hrise] at hg
  rcases hg with hg | hg <;> cases hg

theorem Own.latest_le (h : Own quietSec timed s t g) (hg : g.Upto none) {i : ℕ}
    (hi : s.reservations[i]? = some cell) (hfree : cell.heldByOther t = false) (k : Counter) :
    recordsOf cell.latest k ≤ recordsOf cell.committed k := by
  rcases hd : cell.dirty with _ | ⟨u, new⟩
  · rw [Cell.latest, hd]
  · obtain rfl : u = t := by simpa [Cell.heldByOther, hd] using hfree
    rw [Cell.latest, hd]
    exact h.kept hg hi hd k

/-- **A write of a row**, that makes it hold more or no more. -/
theorem sound_updateReservation {matched : Reservation → Bool} {f : Reservation → Reservation}
    (hf : (∀ r k, matched r = true → (f r).records k ≤ r.records k) ∨ row = some id)
    (hupto : g.Upto none) :
    Sound quietSec timed t (fun found g' => g'.Upto (if found then row else none))
      (updateReservation id matched f) g := by
  intro n s γ b s' _ h hg _ hact
  subst hg
  dsimp only at hact
  split at hact
  · cases hact
    refine ⟨γ t, ?_, hupto.mono⟩
    rwa [update_eq_self]
  · rename_i cell hcell
    obtain ⟨⟨found, cell'⟩, hupdate, heq⟩ := Option.map_eq_some_iff.mp hact
    cases heq
    rcases Cell.updateWhere_cases hupdate with ⟨rfl, hfree, hmatched, rfl⟩ | ⟨rfl, rfl, -⟩
    · refine ⟨.request row, h.step h.clamps (Own.request fun i cell' new hi hdirty k hrise => ?_)
        fun u hu hown => hown.row hu hcell _, .inr rfl⟩
      rw [List.getElem?_set] at hi
      split at hi
      · rename_i heq
        subst heq
        split at hi
        · cases hi
          cases hdirty
          rcases hf with hf | hf
          · refine absurd (le_trans ?_ ((h.own t).latest_le hupto hcell hfree k)) hrise
            rcases hlatest : cell.latest with _ | r
            · rw [Option.map_none]
            · rw [hlatest, Option.any_some] at hmatched
              exact hf r k hmatched
          · exact hf
        · cases hi
      · exact absurd ((h.own t).kept hupto hi hdirty k) hrise
    · obtain ⟨hlt, rfl⟩ := List.getElem?_eq_some_iff.mp hcell
      refine ⟨γ t, ?_, hupto.mono⟩
      rwa [update_eq_self, set_getElem_self]

theorem keeps_updateReservation {matched : Reservation → Bool} {f : Reservation → Reservation}
    (hf : ∀ r k, matched r = true → (f r).records k ≤ r.records k) :
    Keeps quietSec timed t none none (updateReservation id matched f) :=
  fun g hg => (sound_updateReservation (.inl hf) hg).mono fun found g' hg' => by
    rwa [ite_self] at hg'

/-- **The insert of a row**: it is the one that holds more. -/
theorem sound_addReservation (r : Reservation) (hupto : g.Upto none) :
    Sound quietSec timed t (fun id g' => g'.Upto (some id)) (addReservation r) g := by
  intro n s γ b s' _ h hg _ hact
  subst hg
  cases hact
  refine ⟨.request (some s.reservations.length), h.step h.clamps
    (Own.request fun i cell new hi hdirty k hrise => ?_) fun u hu hown => hown.added hu _, .inr rfl⟩
  rw [List.getElem?_append] at hi
  split at hi
  · exact absurd ((h.own t).kept hupto hi hdirty k) hrise
  · rename_i hlt
    rw [List.getElem?_singleton] at hi
    split at hi
    · rename_i heq
      exact congrArg some (by omega)
    · cases hi

/-! ### Programs of requests -/

section
variable {before : Option ℕ} {ids : List ℕ} {h : Held} {gate : Counter → Gate}

theorem keeps_hold (k : Counter) (h : Held) (gate : Gate) :
    Keeps quietSec timed t before before (hold k h gate) :=
  Keeps.read.bind fun _ => keeps_updateCounter _ _ _

theorem keeps_giveBack (k : Counter) (h : Held) :
    Keeps quietSec timed t before before (giveBack k h) :=
  Keeps.read.bind fun _ => (keeps_updateCounter _ _ _).bind fun _ => .pure

theorem keeps_release (k : Counter) (h : Held) :
    Keeps quietSec timed t before before (release k h) :=
  (keeps_giveBack k h).runIf

theorem keeps_releaseScoped : Keeps quietSec timed t before before (releaseScoped ids h) :=
  .eachCeiling (fun _ => keeps_release _ _) ids

theorem keeps_releaseScopedAndCommit :
    Keeps quietSec timed t none none (releaseScopedAndCommit ids h) :=
  (keeps_releaseScoped.bind fun _ => keeps_commit).runIf

theorem keeps_reserveScoped (taken : List ℕ) :
    Keeps quietSec timed t none none (reserveScoped h gate taken ids) := by
  induction ids generalizing taken with
  | nil => exact .pure
  | cons id rest ih =>
    refine (keeps_hold _ _ _).bind fun held => keeps_commit.bind fun _ => ?_
    cases held with
    | true => exact ih _
    | false => exact keeps_releaseScopedAndCommit.bind fun _ => .pure

theorem keeps_holdOnUser (userId : ℕ) (budget : UserBudget) :
    Keeps quietSec timed t before before (holdOnUser userId h budget) := by
  cases budget with
  | none => exact .pure
  | uncapped => exact (keeps_hold _ _ _).bind fun _ => .pure
  | capped gate => exact keeps_hold _ _ _

theorem keeps_record (userId : ℕ) (userReserved : Bool) (userHeld ceilingHeld : Held)
    (ceilings : List ℕ) (ttl : ℤ) :
    Keeps quietSec timed t none none (do
      let id ← record userId userReserved userHeld ceilings ceilingHeld ttl
      commit (some id)) := by
  intro g hg
  rw [record]
  refine Safe.bind (Safe.bind (Keeps.read g hg) fun now g₁ hg₁ => sound_addReservation _ hg₁)
    fun id g₂ hg₂ => keeps_commit g₂ hg₂

theorem keeps_heldHandle (userId : ℕ) (budget : UserBudget) (ttl : ℤ) (recordReservation : Bool) :
    Keeps quietSec timed t none none (heldHandle userId h budget ids ttl recordReservation) := by
  cases recordReservation with
  | true =>
    cases budget with
    | none =>
      rw [heldHandle]
      split
      · exact .pure
      · exact keeps_record _ _ _ _ _ _
    | uncapped | capped gate => exact keeps_record _ _ _ _ _ _
  | false =>
    cases budget with
    | none => exact .pure
    | uncapped | capped gate => exact keeps_commit

theorem keeps_reserveBudget (userId : ℕ) (budget : UserBudget) (ttl : ℤ)
    (recordReservation : Bool) : Keeps quietSec timed t none none
      (reserveBudget userId h gate budget ids ttl recordReservation) := by
  refine (keeps_reserveScoped _).bind fun admitted => ?_
  cases admitted with
  | false => exact .pure
  | true =>
    refine (keeps_holdOnUser _ _).bind fun held => ?_
    cases held with
    | true => exact (keeps_heldHandle _ _ _ _).bind fun _ => .pure
    | false =>
      exact keeps_commit.bind fun _ => keeps_releaseScopedAndCommit.bind fun _ => .pure

variable (reservationId : Option ℕ)

theorem keeps_grow (userDelta scopedDelta : Held) (userGrew : Bool) :
    Keeps quietSec timed t none none (grow reservationId userDelta userGrew scopedDelta) := by
  cases reservationId with
  | none => exact .pure
  | some id =>
    intro g hg
    refine Safe.bind (sound_updateReservation (.inr rfl) hg) fun grown g' hg' => ?_
    cases grown with
    | true => exact keeps_commit.bind (fun _ => .pure) g' hg'
    | false => exact hg'

theorem keeps_increaseUserLeg (handle : Handle) (additional userAdditional : Held)
    (budget : UserBudget) : Keeps quietSec timed t none none
      (increaseUserLeg handle additional userAdditional gate budget) := by
  unfold increaseUserLeg
  have hadmitted : Keeps quietSec timed t none none (if userAdditional ≠ 0 then
      reserveBudget handle.userId userAdditional gate budget [] handle.ttl false
      else pure true) := by
    split
    · exact keeps_reserveBudget _ _ _ _
    · exact .pure
  refine hadmitted.bind fun admitted => Keeps.runIf ?_
  refine (keeps_grow _ _ _ _).bind fun grown => Keeps.runIf ?_
  exact keeps_releaseScopedAndCommit.bind fun _ =>
    ((keeps_giveBack _ _).bind fun _ => keeps_commit).runIf

theorem keeps_increaseReservation (handle : Handle) (additional userAdditional : Held)
    (budget : UserBudget) : Keeps quietSec timed t none none
      (increaseReservation handle additional userAdditional gate budget) := by
  unfold increaseReservation
  have hadmitted : Keeps quietSec timed t none none (if additional ≠ 0 then
      reserveScoped additional gate [] handle.scopedBudgets else pure true) := by
    split
    · exact keeps_reserveScoped _
    · exact .pure
  exact hadmitted.bind fun _ => (keeps_increaseUserLeg _ _ _ _).runIf

/-! ### Programs that end a row, or move it -/

theorem records_status_le (r : Reservation) (status : Status) (k : Counter)
    (h : r.status = .active ∨ status ≠ .active) :
    ({ r with status } : Reservation).records k ≤ r.records k := by
  by_cases hstatus : status = .active
  · obtain ⟨userId, reserved, held, current, expiresAt, lines⟩ := r
    obtain rfl : current = status := by simpa [hstatus] using h
    exact le_rfl
  · cases k with
    | user userId => simp [Reservation.records, hstatus]
    | ceiling id => simp [Reservation.records, hstatus]

theorem keeps_tryTerminate (status : Status) :
    Keeps quietSec timed t none none (tryTerminate reservationId status) := by
  cases reservationId with
  | none => exact .pure
  | some id =>
    exact keeps_updateReservation fun r k hactive =>
      records_status_le r status k (.inl (of_decide_eq_true hactive))

theorem keeps_trySettleReclaimed :
    Keeps quietSec timed t none none (trySettleReclaimed reservationId) := by
  cases reservationId with
  | none => exact .pure
  | some id =>
    exact keeps_updateReservation fun r k _ => records_status_le r .settled k (.inr nofun)

theorem keeps_finish (handle : Handle) (status : Status) (spends : Bool) :
    Keeps quietSec timed t none none (finish handle status spends) := by
  unfold finish
  refine (keeps_tryTerminate _ _).bind fun claimed => ?_
  cases claimed with
  | true =>
    have hback : Keeps quietSec timed t none none (giveHoldsBack handle spends) :=
      (keeps_giveBack _ _).runIf.bind fun _ =>
        (Keeps.eachCeiling (fun _ => keeps_giveBack _ _) _).runIf
    exact hback.bind fun _ => keeps_commit
  | false =>
    have hlate : Keeps quietSec timed t none none (if status = .settled then
        trySettleReclaimed handle.reservationId else pure false) := by
      split
      · exact keeps_trySettleReclaimed _
      · exact .pure
    refine hlate.bind fun late => Keeps.bind (Keeps.runIf ?_) fun _ => keeps_commit
    exact (keeps_giveBack _ _).bind fun _ => .eachCeiling (fun _ => keeps_giveBack _ _) _

theorem keeps_takeGated (gated taken : List (ℕ × Held)) :
    Keeps quietSec timed t before before (takeGated gate taken gated) := by
  have hback : ∀ taken, Keeps quietSec timed t before before (takeGated.giveAllBack taken) := by
    intro taken
    induction taken with
    | nil => exact .pure
    | cons hold rest ih => exact (keeps_release _ _).bind fun _ => ih
  induction gated generalizing taken with
  | nil => exact .pure
  | cons hold rest ih =>
    refine (keeps_hold _ _ _).bind fun held => ?_
    cases held with
    | true => exact ih _
    | false => exact (hback taken).bind fun _ => .pure

theorem keeps_lockActive : Keeps quietSec timed t none none (lockActive reservationId) := by
  cases reservationId with
  | none => exact .pure
  | some id => exact keeps_updateReservation fun _ _ _ => le_rfl

theorem keeps_applyMove (handle : Handle) (move : ReservationMove) :
    Keeps quietSec timed t none none (applyMove handle move) := by
  unfold applyMove
  refine (keeps_lockActive _).bind fun active => ?_
  cases active with
  | false => exact keeps_commit
  | true =>
    refine (Keeps.eachCeiling (fun _ => (keeps_updateCounter _ _ _).bind fun _ => .pure) _).bind
      fun _ => (Keeps.eachCeiling (fun _ => keeps_giveBack _ _) _).bind fun _ =>
      (keeps_takeGated _ _).bind fun taken => ?_
    cases taken with
    | false => exact keeps_commit
    | true =>
      refine keeps_releaseScoped.bind fun _ => ?_
      split
      · rename_i id _
        intro g hg
        refine Safe.bind (sound_updateReservation (.inr rfl) hg) fun found g' hg' => ?_
        refine keeps_commit g' ?_
        cases found with
        | true => exact hg'
        | false => exact hg'.mono
      · exact keeps_record _ _ _ _ _ _
      · exact keeps_commit

theorem keeps_sweepExpired : Keeps quietSec timed t none none (sweepExpired ids) := by
  have hlines : ∀ lines, Keeps quietSec timed t none none (releaseHolds.lines lines) := by
    intro lines
    induction lines with
    | nil => exact .pure
    | cons line rest ih => exact (keeps_release _ _).bind fun _ => ih
  refine Keeps.read.bind fun expired => ?_
  induction expired with
  | nil => exact .pure
  | cons row rest ih =>
    refine (keeps_tryTerminate _ _).bind fun claimed => Keeps.bind (Keeps.runIf ?_)
      fun _ => keeps_commit.bind fun _ => ih
    exact Keeps.read.bind fun _ => (keeps_release _ _).runIf.bind fun _ => hlines _

end

/-! ### The job -/

section
variable {cutoff : ℤ} {row : CounterRow} {sum : Held}

theorem Phase.reads_scanning : (Phase.scanning cutoff).Reads := nofun

theorem Phase.reads_summed : (Phase.summed cutoff k row sum).Reads := nofun

theorem Own.lock (h : Own quietSec timed s t (.scanning cutoff)) (hquiet : row.quiet cutoff = true)
    (hlive : s.live k = true) : Own quietSec timed
      { s with counters := update s.counters k ((s.counters k).write t row) } t
      (.locked cutoff k row) := by
  refine ⟨fun i cell new hi hdirty => ?_, fun _ => h.clean nofun, fun c hc => ?_,
    fun k' row' hlock => ?_, fun k' row' c hlock hc => ?_, nofun⟩
  · exact absurd hdirty (h.clean nofun cell (mem_of_getElem? hi) new)
  · exact h.seen c hc
  · cases hlock
    refine ⟨?_, hlive⟩
    show (update s.counters k _ k).dirty = _
    rw [update_self]
    rfl
  · cases hlock
    cases hc
    exact hquiet

theorem Own.visible (h : Own quietSec timed s t g) (hreads : g.Reads) (k : Counter) :
    s.recorded (·.visible t) k = s.recorded Cell.committed k := by
  rw [Store.recorded, Store.recorded]
  congr 1
  refine map_congr_left fun cell hmem => ?_
  rcases hd : cell.dirty with _ | ⟨u, new⟩
  · rw [Cell.visible, hd]
  · have hne : u ≠ t := fun e => h.clean hreads cell hmem new (e ▸ hd)
    simp [Cell.visible, hd, hne]

theorem Own.summing (h : Own quietSec timed s t (.locked cutoff k row)) :
    Own quietSec timed s t (.summed cutoff k row (s.recorded Cell.committed k)) := by
  refine ⟨fun i cell new hi hdirty => ?_, fun _ => h.clean nofun, h.seen, h.locked, h.quiet,
    fun _ c k' row' total hg => ?_⟩
  · exact absurd hdirty (h.clean nofun cell (mem_of_getElem? hi) new)
  · cases hg
    exact le_rfl

theorem Own.unlock (h : Own quietSec timed s t g) (hreads : g.Reads) (hc : g.cutoff = some cutoff)
    (counters : Counter → Cell CounterRow) (clamps : List Clamp) :
    Own quietSec timed { s with counters := counters, clamps := clamps } t (.scanning cutoff) := by
  refine ⟨fun i cell new hi hdirty => ?_, fun _ => h.clean hreads, fun c hc' => ?_, nofun, nofun,
    nofun⟩
  · exact absurd hdirty (h.clean hreads cell (mem_of_getElem? hi) new)
  · cases hc'
    exact h.seen cutoff hc

theorem sound_cutoff :
    Sound quietSec timed t (fun now g' => g' = .scanning (now - quietSec * 1000000)) clock
      .idle := by
  intro n s γ b s' _ h hg _ hf
  cases hf
  have hown := h.own t
  rw [hg] at hown
  refine ⟨.scanning (s.now - quietSec * 1000000), h.step h.clamps ?_ fun u _ hu => hu, rfl⟩
  refine ⟨fun i cell new hi hdirty => ?_, fun _ => hown.clean nofun, fun cutoff hcutoff => ?_,
    nofun, nofun, nofun⟩
  · exact absurd hdirty (hown.clean nofun cell (mem_of_getElem? hi) new)
  · cases hcutoff
    omega

theorem sound_lockQuietHolds (k : Counter) :
    Sound quietSec timed t (fun locked g' => match locked with
      | none => g' = .scanning cutoff
      | some counters => ∃ row, counters = row.held ∧ g' = .locked cutoff k row)
      (lockQuietHolds k cutoff) (.scanning cutoff) := by
  intro n s γ b s' _ h hg _ hf
  obtain ⟨⟨found, cell⟩, hupdate, heq⟩ := Option.map_eq_some_iff.mp hf
  cases heq
  have hown := h.own t
  rw [hg] at hown
  rcases Cell.updateWhere_cases hupdate with ⟨rfl, hfree, hmatched, rfl⟩ | ⟨rfl, rfl, -⟩
  · rw [Bool.and_eq_true] at hmatched
    refine ⟨.locked cutoff k (s.counters k).latest, h.step h.clamps
      (hown.lock hmatched.2 hmatched.1) fun u hu hown' => hown'.counter hu hfree _ _, ?_⟩
    exact ⟨(s.counters k).latest, rfl, rfl⟩
  · refine ⟨γ t, ?_, hg⟩
    rwa [update_eq_self, update_eq_self]

theorem sound_activeHeld :
    Sound quietSec timed t (fun sum g' => g' = .summed cutoff k row sum) (activeHeld k)
      (.locked cutoff k row) := by
  intro n s γ b s' _ h hg _ hf
  have hown := h.own t
  rw [hg] at hown
  cases hf
  refine ⟨.summed cutoff k row (s.recorded Cell.committed k),
    h.step h.clamps hown.summing fun u _ hu => hu, ?_⟩
  show Phase.summed cutoff k row _ = .summed cutoff k row (s.recorded (·.visible t) k)
  rw [hown.visible nofun]

theorem CounterRow.held_set_clamped (row : CounterRow) (sum : Held) (stamp : ℤ) (axis : Axis) :
    (row.set (clamped row.held sum) stamp).held axis = min (row.held axis) (sum axis) := by
  simp only [CounterRow.set, clamped]
  split
  · rw [Option.getD_some, min_eq_right (by omega)]
  · rw [Option.getD_none, min_eq_left (by omega)]

/-- **The write.**  The counter is as it was read, and no more is recorded on it than was
summed. -/
theorem sound_clampHolds : Sound quietSec timed t (fun _ g' => g' = .scanning cutoff)
      (clampHolds k (clamped row.held sum)) (.summed cutoff k row sum) := by
  refine Safe.bind (Safe.read (Q := fun _ g' => g' = .summed cutoff k row sum)
    fun _ _ _ _ _ _ _ => rfl) fun stamp g hg => ?_
  subst hg
  intro n s γ b s' _ h hg _ hf
  have hown := h.own t
  rw [hg] at hown
  obtain ⟨⟨found, cell⟩, hupdate, heq⟩ := Option.map_eq_some_iff.mp hf
  cases heq
  obtain ⟨hdirty, hlive⟩ := hown.locked k row rfl
  have hlatest : (s.counters k).latest = row := by rw [Cell.latest, hdirty]
  rcases Cell.updateWhere_cases hupdate with ⟨rfl, hfree, -, rfl⟩ | ⟨-, -, hno⟩
  · refine ⟨.scanning cutoff, h.step (fun c hc => ?_)
      (hown.unlock Phase.reads_summed rfl _ _) fun u hu hown' => hown'.counter hu hfree _ _, rfl⟩
    rcases mem_append.mp hc with hc | hc
    · exact h.clamps c hc
    · obtain rfl := mem_singleton.mp hc
      rw [hlatest, Cell.latest_write]
      refine ⟨fun axis => ?_, fun written hwritten => ?_, fun htimed axis hlower => ?_⟩
      · rw [CounterRow.held_set_clamped]
        exact min_le_left _ _
      · have hquiet := hown.quiet k row cutoff rfl rfl
        have hseen := hown.seen cutoff rfl
        simp only at hwritten
        simp only [CounterRow.quiet, hwritten, decide_eq_true_eq] at hquiet
        show written < s.now - quietSec * 1000000
        omega
      · have hsum : s.recorded Cell.committed k axis ≤ sum axis :=
          hown.summed htimed cutoff k row sum rfl axis
        simp only [CounterRow.held_set_clamped] at hlower ⊢
        omega
  · cases hno

theorem sound_reconcile (k : Counter) :
    Sound quietSec timed t (fun _ g' => g' = .scanning cutoff) (reconcile k cutoff)
      (.scanning cutoff) := by
  refine Safe.bind (sound_lockQuietHolds k) fun locked g hg => ?_
  cases locked with
  | none =>
    obtain rfl := hg
    exact Safe.bind (sound_commit (.inr Phase.reads_scanning)) fun _ _ hg => hg
  | some counters =>
    obtain ⟨row, rfl, rfl⟩ := hg
    refine Safe.bind sound_activeHeld fun sum g hg => ?_
    subst hg
    dsimp only
    split
    · refine Safe.bind sound_clampHolds fun _ g hg => ?_
      subst hg
      exact Safe.bind (sound_commit (.inr Phase.reads_scanning)) fun _ _ hg => hg
    · exact Safe.bind (sound_commit (.inr Phase.reads_summed)) fun _ _ hg => hg

theorem sound_reconcileAll (ks : List Counter) :
    Sound quietSec timed t (fun _ g' => g' = .scanning cutoff) (reconcileAll cutoff ks)
      (.scanning cutoff) := by
  induction ks with
  | nil => exact rfl
  | cons k rest ih =>
    refine Safe.bind (sound_reconcile k) fun moved g hg => ?_
    subst hg
    exact Safe.bind ih fun _ _ hg => hg

theorem sound_reconcileOrphanedHolds (batchSize : ℕ) (users ceilings : List ℕ) :
    Sound quietSec timed t (fun _ _ => True)
      (reconcileOrphanedHolds quietSec batchSize users ceilings) .idle := by
  refine Safe.bind sound_cutoff fun now g hg => ?_
  subst hg
  have hscan : ∀ order, Sound quietSec timed t
      (fun _ g' => g' = .scanning (now - quietSec * 1000000))
      (listQuietHeld order (now - quietSec * 1000000) batchSize)
      (.scanning (now - quietSec * 1000000)) :=
    fun _ => Safe.read fun _ _ _ _ _ _ _ => rfl
  refine Safe.bind (hscan _) fun userIds g hg => ?_
  subst hg
  refine Safe.bind (hscan _) fun scopedIds g hg => ?_
  subst hg
  refine Safe.bind (sound_commit (.inr Phase.reads_scanning)) fun _ g hg => ?_
  subst hg
  exact (sound_reconcileAll _).mono fun _ _ _ => trivial

end

/-! ### Every interleaving -/

theorem sound_failing {p : Run Unit} (h : Sound quietSec timed t (fun _ _ => True) p .idle) :
    ∀ failure, Sound quietSec timed t (fun _ _ => True) (failing p failure) .idle
  | none => h
  | some failure => h.cut (fun g => Safe.bind sound_rollback fun _ g' hg' => by
    subst hg'
    exact (keeps_releaseScopedAndCommit .idle trivial).mono fun _ _ _ => trivial) failure.acts

theorem Keeps.sound {p : Run Unit} (h : Keeps quietSec timed t none none p) :
    Sound quietSec timed t (fun _ _ => True) p .idle :=
  (h .idle trivial).mono fun _ _ _ => trivial

theorem sound_program (op : Op) :
    Sound quietSec timed t (fun _ _ => True) (op.program quietSec) .idle := by
  cases op with
  | reserve userId h gate budget scopedBudgets ttl =>
    exact ((keeps_reserveBudget _ _ _ _).bind fun _ => .pure).sound
  | increase handle additional userAdditional gate budget =>
    exact (keeps_increaseReservation _ _ _ _).sound
  | finish handle status spends => exact (keeps_finish _ _ _).sound
  | move handle plan => exact (keeps_applyMove _ _).sound
  | sweep ids => exact keeps_sweepExpired.sound
  | touch k => exact ((keeps_giveBack k 0).bind fun _ => keeps_commit).sound
  | reconcile batchSize users ceilings =>
    exact Safe.bind (sound_reconcileOrphanedHolds _ _ _) fun _ _ _ => trivial

theorem Inv.event (h : Inv quietSec timed n s γ) {e : Event} (he : e.step s = some s') :
    Inv quietSec timed n s' γ := by
  cases e with
  | tick elapsed =>
    cases he
    exact ⟨h.clamps, fun t => (h.own t).frame (by simp) (fun _ _ hi _ _ => hi)
      (fun _ _ _ => ⟨rfl, rfl⟩) fun _ _ _ _ => le_rfl⟩
  | delete k =>
    rw [Event.step] at he
    split at he
    · cases he
    · rename_i hfree
      cases he
      refine ⟨h.clamps, fun t => (h.own t).frame le_rfl (fun _ _ hi _ _ => hi)
        (fun k' row hlock => ⟨rfl, ?_⟩) fun _ _ _ _ => le_rfl⟩
      refine update_of_ne ?_ _ _
      rintro rfl
      rw [((h.own t).locked k' row hlock).1] at hfree
      exact hfree rfl

theorem Store.Settled.inv (h : s.Settled) : Inv quietSec timed 0 s fun _ => .idle := by
  obtain ⟨-, hrows, hclamps⟩ := h
  refine ⟨fun c hc => ?_, fun t => Own.idle fun cell hcell new hdirty => ?_⟩
  · rw [hclamps] at hc
    cases hc
  · rw [hrows cell hcell] at hdirty
    cases hdirty

theorem clamps_of_reach {m : Machine (Op × Option Failure) Label Store Unit}
    (h : Reach (system quietSec) (Timed timed quietSec) m) :
    ∀ c ∈ m.store.clamps, c.Lowers ∧ c.Quiet quietSec ∧ (timed → c.Covered) := by
  obtain ⟨γ, hinv, -, -⟩ := h.safe .idle (I := Inv quietSec timed) (Q := fun _ _ _ => True)
    (fun s hs => Store.Settled.inv hs) (fun _ _ _ hinv _ => ⟨hinv.clamps, hinv.own⟩)
    (fun _ _ _ _ _ hinv he => hinv.event he)
    fun op t => sound_failing (sound_program op.1) op.2
  exact hinv.clamps

/-- **Orphan reconciliation is safe.**  In every interleaving of the job with sessions that reserve,
top up, settle, refund, move and sweep, any of which may fail anywhere: each write of the job lowers
a counter that was not written within the quiet window.  Where each row lands in time, none goes
below what the active rows record on the counter at that moment. -/
theorem reconcile_safe (quietSec : ℤ) (m : Machine (Op × Option Failure) Label Store Unit) :
    (Reach (system quietSec) (fun _ _ => True) m →
      ∀ c ∈ m.store.clamps, c.Lowers ∧ c.Quiet quietSec) ∧
    (Reach (system quietSec) (InTime quietSec) m → ∀ c ∈ m.store.clamps, c.Covered) := by
  refine ⟨fun h c hc => ?_, fun h c hc => ?_⟩
  · have hreach : Reach (system quietSec) (Timed False quietSec) m :=
      h.mono fun _ _ _ hfalse => hfalse.elim
    obtain ⟨hlowers, hquiet, -⟩ := clamps_of_reach hreach c hc
    exact ⟨hlowers, hquiet⟩
  · have hreach : Reach (system quietSec) (Timed True quietSec) m :=
      h.mono fun _ _ hl _ => hl
    exact (clamps_of_reach hreach c hc).2.2 trivial

/-! ### Runs -/

def usdHeld (micros : ℕ) : Held
  | .budget => micros
  | .token | .request => 0

/-- Every counter holds three dollars that no row records. -/
def orphanStore : Store where
  now := 0
  live := fun _ => true
  counters := fun _ => ⟨⟨usdHeld 3000000, none⟩, none⟩
  reservations := []
  clamps := []

/-- A request holds two dollars on a ceiling and records them before or while the job, sixteen
minutes later, reclaims it. -/
def heldAndRecorded (stalls : Bool) : List (Choice (Op × Option Failure) Event) :=
  let reserve : Op := .reserve 1 (usdHeld 2000000) (fun _ _ => true) .none [1] 900000000
  let records : List (Choice (Op × Option Failure) Event) := [.run 0, .run 0, .run 0]
  [.spawn (reserve, none), .run 0, .run 0, .run 0] ++ (if stalls then [] else records) ++
    [.env (.tick 960000000), .spawn (.reconcile 10 [] [1], none),
      .run 1, .run 1, .run 1, .run 1, .run 1, .run 1] ++
    (if stalls then records else []) ++ [.run 1, .run 1, .run 1]

/-- What a write of the job did on the dollar axis. -/
def Clamp.usd (c : Clamp) : ℕ × ℕ × ℕ :=
  (c.before.held .budget, c.after.held .budget, c.recorded .budget)

theorem orphanStore_settled : orphanStore.Settled :=
  ⟨fun _ => rfl, fun _ hcell => (not_mem_nil hcell).elim, rfl⟩

theorem reconcile_safe_orphan : ∃ m, Reach (system 900) (InTime 900) m ∧
      m.store.clamps.map Clamp.usd = [(5000000, 2000000, 2000000)] ∧
      ∀ c ∈ m.store.clamps, c.Lowers ∧ c.Quiet 900 ∧ c.Covered := by
  have hrun : ((Machine.mk orphanStore []).exec (system 900) (InTime 900)
      (heldAndRecorded false)).map (fun m => m.store.clamps.map Clamp.usd) =
        some [(5000000, 2000000, 2000000)] := by
    decide +kernel
  obtain ⟨m, hm, hclamps⟩ := Option.map_eq_some_iff.mp hrun
  have hreach := Reach.of_exec (.start orphanStore_settled) hm
  refine ⟨m, hreach, hclamps, fun c hc => ?_⟩
  obtain ⟨hlowers, hquiet⟩ := (reconcile_safe 900 m).1 (hreach.mono fun _ _ _ => trivial) c hc
  exact ⟨hlowers, hquiet, (reconcile_safe 900 m).2 hreach c hc⟩

/-- **A stalled hold is clamped.**  Its row commits between the job's sum and its write, and the
counter ends below what the row records. -/
theorem stalled_hold_clamped :
    ∃ m, Reach (system 900) (fun _ _ => True) m ∧ ∃ c ∈ m.store.clamps, ¬ c.Covered := by
  have hrun : ((Machine.mk orphanStore []).exec (system 900) (fun _ _ => True)
      (heldAndRecorded true)).map (fun m => m.store.clamps.map Clamp.usd) =
        some [(5000000, 0, 2000000)] := by
    decide +kernel
  obtain ⟨m, hm, hclamps⟩ := Option.map_eq_some_iff.mp hrun
  obtain ⟨c, hc, husd⟩ : ∃ c ∈ m.store.clamps, c.usd = (5000000, 0, 2000000) :=
    List.mem_map.mp (by rw [hclamps]; exact List.mem_singleton_self _)
  refine ⟨m, Reach.of_exec (.start orphanStore_settled) hm, c, hc, fun hcovered => ?_⟩
  obtain ⟨hbefore, hrest⟩ := Prod.mk.inj husd
  obtain ⟨hafter, hrecorded⟩ := Prod.mk.inj hrest
  have hbudget := hcovered .budget (by omega)
  omega

end Otari.Orphans

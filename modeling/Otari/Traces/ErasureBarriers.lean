import Otari.Traces.ErasureRows

/-!
# Traces — ErasureBarriers — the row that says when a user was erased

Every committed erasure of a user is answered for by the user's row, or by one that was forgotten
after every write it outranks had grown too old (`Barrier.answered`).  So a write that is not
refused was taken in after every committed erasure of its user (`clean_of_not_refused`), and a write
that is refused was too old or its user was erased (`refusal_justified`).
-/

namespace Otari.Traces
open Threads Function

variable {clock : Clocks} {s : Store} {γ : ℕ → Phase} {t : ℕ} {g : Phase}

/-! ### Stamps -/

/-- When a write says it was taken in: never before it was, and just then unless it is the cost of a
priced request. -/
def Stamped (clock : Clocks) (trace : TraceWrite) : Prop :=
  clock.read trace.intake.replica trace.intake.moment ≤ trace.capturedAt ∧
    (trace.intake.source ≠ .priced →
      trace.capturedAt = clock.read trace.intake.replica trace.intake.moment)

/-- A write's cost of priced requests carries a time that every erasure since it was taken in
outranks. -/
def Outranked (begun : List Erasure) (trace : TraceWrite) : Prop :=
  trace.intake.source = .priced → ∀ e ∈ begun, trace.userId = some e.userId →
    trace.intake.moment < e.moment → trace.capturedAt < e.erasedAt + erasureMargin

instance (begun : List Erasure) (trace : TraceWrite) : Decidable (Outranked begun trace) :=
  inferInstanceAs (Decidable (_ → _))

/-- The row that shows `e'` refuses whatever a row that shows `e` has to. -/
def Answers (e' e : Erasure) : Prop := e.moment ≤ e'.moment ∨ e.erasedAt ≤ e'.erasedAt

instance (e' e : Erasure) : Decidable (Answers e' e) := inferInstanceAs (Decidable (_ ∨ _))

/-- An erasure at this time may have been forgotten. -/
def Past (clock : Clocks) (now : ℕ) (erasedAt : Instant) : Prop :=
  ∃ replica, erasedAt + erasureMargin + erasureKeptFor < clock.read replica now

theorem Past.mono {now now' : ℕ} {a : Instant} (h : Past clock now a) (hn : now ≤ now') :
    Past clock now' a := by
  obtain ⟨replica, hr⟩ := h
  exact ⟨replica, lt_of_lt_of_le hr ((clock.strictMono replica).monotone hn)⟩

variable {trace : TraceWrite}

/-- **A write taken in before an erasure carries a time the erasure outranks.** -/
theorem lt_erasedAt {begun : List Erasure} {e : Erasure}
    (hstamp : Stamped clock trace) (hout : Outranked begun trace) (he : e ∈ begun)
    (hat : ∃ replica, e.erasedAt = clock.read replica e.moment)
    (hu : trace.userId = some e.userId) (hlt : trace.intake.moment < e.moment) :
    trace.capturedAt < e.erasedAt + erasureMargin := by
  by_cases hpriced : trace.intake.source = .priced
  · exact hout hpriced e he hu hlt
  · obtain ⟨replica, hat⟩ := hat
    rw [hstamp.2 hpriced, hat]
    have hforward := clock.strictMono trace.intake.replica hlt
    have hnear := clock.near trace.intake.replica replica e.moment
    exact lt_of_lt_of_le hforward hnear

/-! ### The erasure rows -/

/-- What a thread may have made of a user's row. -/
def Phase.sets : Phase → UserId → Option (Option Instant) → Option (Option Instant) → Prop
  | .writing users _ _, u, c, v => u ∈ users ∧ v = some (c.getD none)
  | .erasing e .locked, u, c, v => u = e.userId ∧ v = some (c.getD none)
  | .erasing e .set, u, _, v => u = e.userId ∧ v = some (some e.erasedAt)
  | .erasing e .deleted, u, _, v => u = e.userId ∧ v = some (some e.erasedAt)
  | .forgetting cutoff _, _, c, v =>
    (v = some (c.getD none) ∨ v = none) ∧ forgettable cutoff (c.getD none)
  | _, _, _, _ => False

structure Barrier (clock : Clocks) (erasures : Table UserId (Option Instant))
    (erased : List Erasure) (now : ℕ) (γ : ℕ → Phase) : Prop where
  held : ∀ t u, (γ t).holds u → (erasures.row u).heldBy t = true
  sets : ∀ u t v, (erasures.row u).dirty = some (t, v) → (γ t).sets u (erasures.get u) v
  answered : ∀ e ∈ erased, ∃ e' ∈ erased, e'.userId = e.userId ∧ Answers e' e ∧
    (erasures.get e.userId = some (some e'.erasedAt) ∨ Past clock now e'.erasedAt)
  shown : ∀ u a, erasures.get u = some (some a) → ∃ e ∈ erased, e.userId = u ∧ e.erasedAt = a

def Phase.Knows (clock : Clocks) (now : ℕ) (begun erased : List Erasure) : Phase → Prop
  | .idle => True
  | .admitted moment => moment ≤ now
  | .writing users fine _ =>
    ∀ trace ∈ fine, (∀ u, trace.userId = some u → u ∈ users) ∧ Clean erased trace
  | .erasing e stage => e ∈ begun ∧
    (stage ≠ .begun → ∀ e' ∈ erased, e'.userId = e.userId → Answers e e')
  | .forgetting cutoff _ =>
    ∃ replica, cutoff + erasureMargin + erasureKeptFor ≤ clock.read replica now

/-- What the records of the store say. -/
structure Recorded (clock : Clocks) (s : Store) : Prop where
  submitted : ∀ trace ∈ s.submitted, Stamped clock trace
  begun : ∀ e ∈ s.begun, ∃ replica, e.erasedAt = clock.read replica e.moment
  erased : ∀ e ∈ s.erased, e ∈ s.begun
  refusals : ∀ x ∈ s.refusals, (∃ e ∈ s.erased, x.trace.userId = some e.userId) ∨
    maxWriteAge < x.writtenAt - clock.read x.trace.intake.replica x.trace.intake.moment

namespace Barrier
variable {erasures erasures' : Table UserId (Option Instant)} {begun erased : List Erasure} {now : ℕ}

theorem exclusive (h : Barrier clock erasures erased now γ) : Exclusive γ :=
  fun t t' u ht ht' => Cell.heldBy_unique (h.held t u ht) (h.held t' u ht')

theorem step (h : Barrier clock erasures erased now γ) (hT : Table.Writes t erasures erasures')
    (hheld : ∀ u, g.holds u → (erasures'.row u).heldBy t = true)
    (hsets : ∀ u v, (erasures'.row u).dirty = some (t, v) → g.sets u (erasures.get u) v) :
    Barrier clock erasures' erased now (update γ t g) := by
  refine ⟨fun t' u hu => ?_, fun u t' v hd => ?_, fun e he => ?_, fun u a hu => ?_⟩
  · by_cases ht : t' = t
    · subst ht
      rw [update_self] at hu
      exact hheld u hu
    · rw [update_of_ne ht] at hu
      obtain ⟨v, hv⟩ := Cell.heldBy_iff.mp (h.held t' u hu)
      exact Cell.heldBy_iff.mpr ⟨v, (hT.dirty_of_ne ht).mpr hv⟩
  · rw [hT.get]
    by_cases ht : t' = t
    · subst ht
      rw [update_self]
      exact hsets u v hd
    · rw [update_of_ne ht]
      exact h.sets u t' v ((hT.dirty_of_ne ht).mp hd)
  · rw [hT.get]
    exact h.answered e he
  · rw [hT.get] at hu
    exact h.shown u a hu

theorem phase (h : Barrier clock erasures erased now γ) (hh : ∀ u, g.holds u → (γ t).holds u)
    (hs : ∀ u c v, (γ t).sets u c v → g.sets u c v) :
    Barrier clock erasures erased now (update γ t g) :=
  h.step (Table.Writes.refl t erasures) (fun u hu => h.held t u (hh u hu))
    fun u v hd => hs u _ v (h.sets u t v hd)

theorem get_commit (h : Barrier clock erasures erased now γ) (hγ : ∀ e stage, γ t ≠ .erasing e stage)
    (hknows : (γ t).Knows clock now begun erased) (u : UserId) :
    (∀ a, (erasures.commit t).get u = some (some a) ↔ erasures.get u = some (some a)) ∨
      (∀ a, erasures.get u = some (some a) → Past clock now a) ∧ (erasures.commit t).get u = none := by
  rcases erasures.get_commit_cases t u with ⟨v, hd, heq⟩ | ⟨-, heq⟩
  · have hsets := h.sets u t v hd
    have hkeep : v = some ((erasures.get u).getD none) →
        ∀ a, (erasures.commit t).get u = some (some a) ↔ erasures.get u = some (some a) := by
      rintro rfl a
      rw [heq]
      cases erasures.get u with
      | none => simp
      | some b => simp
    cases hg : γ t with
    | writing users fine owned =>
      rw [hg] at hsets
      exact .inl (hkeep hsets.2)
    | forgetting cutoff users =>
      rw [hg] at hsets hknows
      obtain ⟨hv | rfl, hforget⟩ := hsets
      · exact .inl (hkeep hv)
      · refine .inr ⟨fun a ha => ?_, heq⟩
        obtain ⟨replica, hcut⟩ := hknows
        rw [ha] at hforget
        have hlt : a < cutoff := by simpa [forgettable] using hforget
        exact ⟨replica, by linarith⟩
    | erasing e stage => exact absurd hg (hγ e stage)
    | idle =>
      rw [hg] at hsets
      exact hsets.elim
    | admitted moment =>
      rw [hg] at hsets
      exact hsets.elim
  · exact .inl fun a => by rw [heq]

theorem dirty_ne {u : UserId} {t' : ℕ} {v : Option (Option Instant)} (ht : t' ≠ t)
    (hd : (erasures.row u).dirty = some (t', v)) : (erasures.commit t).row u = erasures.row u := by
  rcases erasures.commit_cases t u with ⟨w, hw, -⟩ | ⟨-, heq⟩
  · rw [hd] at hw
    exact absurd (Prod.mk.inj (Option.some.inj hw)).1 ht
  · exact heq

theorem open_commit (h : Barrier clock erasures erased now γ) (hh : ∀ u, ¬g.holds u) :
    (∀ t' u, (update γ t g t').holds u → ((erasures.commit t).row u).heldBy t' = true) ∧
      ∀ u t' v, ((erasures.commit t).row u).dirty = some (t', v) →
        (update γ t g t').sets u ((erasures.commit t).get u) v := by
  constructor
  · intro t' u hu
    by_cases ht : t' = t
    · subst ht
      rw [update_self] at hu
      exact absurd hu (hh u)
    · rw [update_of_ne ht] at hu
      obtain ⟨v, hv⟩ := Cell.heldBy_iff.mp (h.held t' u hu)
      rw [dirty_ne ht hv]
      exact Cell.heldBy_iff.mpr ⟨v, hv⟩
  · intro u t' v hd
    obtain ⟨ht, hd⟩ := Table.dirty_commit hd
    rw [update_of_ne ht, Table.get, dirty_ne ht hd]
    exact h.sets u t' v hd

theorem commit (h : Barrier clock erasures erased now γ) (hγ : ∀ e stage, γ t ≠ .erasing e stage)
    (hknows : (γ t).Knows clock now begun erased) (hh : ∀ u, ¬g.holds u) :
    Barrier clock (erasures.commit t) erased now (update γ t g) := by
  obtain ⟨hheld, hsets⟩ := h.open_commit (t := t) hh
  refine ⟨hheld, hsets, fun e he => ?_, fun u a hu => ?_⟩
  · obtain ⟨e', he', hu, hans, hrow⟩ := h.answered e he
    refine ⟨e', he', hu, hans, ?_⟩
    rcases h.get_commit hγ hknows e.userId with hsame | ⟨hpast, -⟩
    · exact hrow.imp_left (hsame e'.erasedAt).mpr
    · exact .inr (hrow.elim (hpast _) id)
  · rcases h.get_commit hγ hknows u with hsame | ⟨-, hnone⟩
    · exact h.shown u a ((hsame a).mp hu)
    · rw [hnone] at hu
      cases hu

/-- **The commit of an erasure**: its user's row shows it. -/
theorem commitErasure {e : Erasure} (h : Barrier clock erasures erased now γ)
    (hγ : γ t = .erasing e .deleted) (hlast : ∀ e' ∈ erased, e'.userId = e.userId → Answers e e')
    (hh : ∀ u, ¬g.holds u) :
    Barrier clock (erasures.commit t) (e :: erased) now (update γ t g) := by
  obtain ⟨hheld, hsets⟩ := h.open_commit (t := t) hh
  have hrow : (erasures.commit t).get e.userId = some (some e.erasedAt) := by
    obtain ⟨v, hv⟩ := Cell.heldBy_iff.mp (h.held t e.userId (by rw [hγ]; exact rfl))
    have hval := h.sets _ t v hv
    rw [hγ] at hval
    rcases erasures.get_commit_cases t e.userId with ⟨w, hw, heq⟩ | ⟨hfree, -⟩
    · rw [hv] at hw
      cases hw
      rw [heq, hval.2]
    · exact absurd hv (hfree v)
  have hother : ∀ u, u ≠ e.userId → (erasures.commit t).get u = erasures.get u := by
    intro u hu
    rcases erasures.get_commit_cases t u with ⟨w, hw, -⟩ | ⟨-, heq⟩
    · have hval := h.sets u t w hw
      rw [hγ] at hval
      exact absurd hval.1 hu
    · exact heq
  refine ⟨hheld, hsets, fun e₁ he₁ => ?_, fun u a hu => ?_⟩
  · by_cases hu : e₁.userId = e.userId
    · refine ⟨e, List.mem_cons_self, hu.symm, ?_, .inl (by rw [hu, hrow])⟩
      rcases List.mem_cons.mp he₁ with rfl | hold
      · exact .inl le_rfl
      · exact hlast e₁ hold hu
    · have hold := (List.mem_cons.mp he₁).resolve_left fun heq => hu (by rw [heq])
      obtain ⟨e', he', hu', hans, hcase⟩ := h.answered e₁ hold
      exact ⟨e', List.mem_cons_of_mem _ he', hu', hans, by rwa [hother _ hu]⟩
  · by_cases hue : u = e.userId
    · subst hue
      rw [hrow] at hu
      cases hu
      exact ⟨e, List.mem_cons_self, rfl, rfl⟩
    · rw [hother u hue] at hu
      obtain ⟨e', he', hu', ha⟩ := h.shown u a hu
      exact ⟨e', List.mem_cons_of_mem _ he', hu', ha⟩

theorem rollback (h : Barrier clock erasures erased now γ) (hh : ∀ u, ¬g.holds u) :
    Barrier clock (erasures.rollback t) erased now (update γ t g) := by
  refine ⟨fun t' u hu => ?_, fun u t' v hd => ?_, fun e he => ?_, fun u a hu => ?_⟩
  · by_cases ht : t' = t
    · subst ht
      rw [update_self] at hu
      exact absurd hu (hh u)
    · rw [update_of_ne ht] at hu
      have hheld := h.held t' u hu
      rw [Table.row_rollback, Cell.heldBy_rollback ht hheld]
      exact hheld
  · obtain ⟨ht, hd⟩ := Table.dirty_rollback hd
    rw [update_of_ne ht, Table.get_rollback]
    exact h.sets u t' v hd
  · rw [Table.get_rollback]
    exact h.answered e he
  · rw [Table.get_rollback] at hu
    exact h.shown u a hu

theorem tick (h : Barrier clock erasures erased now γ) : Barrier clock erasures erased (now + 1) γ := by
  refine { h with answered := fun e he => ?_ }
  obtain ⟨e', he', hu, hans, hrow⟩ := h.answered e he
  exact ⟨e', he', hu, hans, hrow.imp_right fun hp => hp.mono (Nat.le_succ now)⟩

theorem seen_eq_get (h : Barrier clock erasures erased now γ) (hγ : ∀ u c v, ¬(γ t).sets u c v)
    (u : UserId) : erasures.seen t u = erasures.get u :=
  Table.seen_of_free fun v hd => hγ u _ v (h.sets u t v hd)

end Barrier

/-! ### Judging a write -/

/-- **A write not refused was taken in after every committed erasure of its user.** -/
theorem clean_of_not_refused {erased : UserId → Option Instant} {writtenAt : Instant}
    {replica : ℕ} (hrec : Recorded clock s)
    (hbar : Barrier clock s.erasures s.erased s.now γ) (hstamp : Stamped clock trace)
    (hout : Outranked s.begun trace) (hsoon : clock.read replica s.now - writtenAt ≤ minutes 30)
    (herased : ∀ u, trace.userId = some u → erased u = (s.erasures.get u).getD none)
    (hnot : refused trace erased writtenAt = false) : Clean s.erased trace := by
  intro e he hu
  by_contra hlt
  obtain ⟨e', he', hu', hans, hrow⟩ := hbar.answered e he
  have hcap : trace.capturedAt < e'.erasedAt + erasureMargin := by
    rcases hans with hmoment | hat
    · exact lt_erasedAt hstamp hout (hrec.erased e' he') (hrec.begun e' (hrec.erased e' he'))
        (by rw [hu, hu']) (lt_of_lt_of_le (not_le.mp hlt) hmoment)
    · have := lt_erasedAt hstamp hout (hrec.erased e he) (hrec.begun e (hrec.erased e he)) hu
        (not_le.mp hlt)
      linarith
  simp only [refused, Bool.decide_or, Bool.or_eq_false_iff, decide_eq_false_iff_not] at hnot
  obtain ⟨hage, hsince⟩ := hnot
  rcases hrow with hget | ⟨replica', hpast⟩
  · refine hsince ?_
    rw [erasedSince, hu, Option.bind_some, herased _ hu, hget]
    simpa using hcap
  · have hnear := clock.near replica' replica s.now
    simp only [erasureMargin, erasureKeptFor, maxWriteAge, minutes] at *
    linarith

/-- **A write refused was too old, or its user was erased.** -/
theorem refusal_justified {erased : UserId → Option Instant} {writtenAt : Instant}
    (hbar : Barrier clock s.erasures s.erased s.now γ) (hstamp : Stamped clock trace)
    (herased : ∀ u, trace.userId = some u → erased u = (s.erasures.get u).getD none)
    (hrefused : refused trace erased writtenAt = true) :
    (∃ e ∈ s.erased, trace.userId = some e.userId) ∨
      maxWriteAge < writtenAt - clock.read trace.intake.replica trace.intake.moment := by
  simp only [refused, Bool.decide_or, Bool.or_eq_true, decide_eq_true_eq] at hrefused
  rcases hrefused with hage | hsince
  · have := hstamp.1
    exact .inr (by linarith)
  · rw [erasedSince, Option.any_eq_true] at hsince
    obtain ⟨a, ha, -⟩ := hsince
    obtain ⟨u, hu, ha⟩ := Option.bind_eq_some_iff.mp ha
    rw [herased u hu, Option.getD_eq_iff] at ha
    rcases ha with ha | ⟨-, ha⟩
    · obtain ⟨e, he, heu, -⟩ := hbar.shown u a ha
      exact .inl ⟨e, he, by rw [hu, heu]⟩
    · cases ha

end Otari.Traces

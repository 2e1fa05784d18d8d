import Otari.Traces.ErasureBarriers

/-!
# Traces — ErasureFinal — an erasure against every interleaving

Requests, exports, batches, erasures and the sweep that forgets erasures, act by act (`FinalInv`, one
lemma an act).  Where each batch reaches its lock within thirty minutes (`Timely`), and neither the
cost of a priced request nor an erasure overtaken by a later one is late (`Orderly`), no row taken in
before a committed erasure of its user is ever stored (`erasure_final`).  Without the second,
`priced_cost_returns` stores one.
-/

namespace Otari.Traces
open Threads Function List
open Option

variable {clock : Clocks} {t : ℕ} {g : Phase}

/-- Each batch reaches its lock within thirty minutes of its start. -/
def Timely (clock : Clocks) : Statement → Store → Prop
  | .lockUsers replica writtenAt _, s => clock.read replica s.now - writtenAt ≤ minutes 30
  | _, _ => True

instance (clock : Clocks) : ∀ l s, Decidable (Timely clock l s)
  | .lockUsers replica writtenAt _, s =>
    inferInstanceAs (Decidable (clock.read replica s.now - writtenAt ≤ minutes 30))
  | .erase _, _ => .isTrue trivial
  | .clear _, _ => .isTrue trivial
  | .other, _ => .isTrue trivial

/-- The cost of a priced request carries a time that every erasure since its export outranks, and no
erasure takes its user's row after a later one that its own would not answer for. -/
def Orderly : Statement → Store → Prop
  | .lockUsers _ _ traces, s => ∀ trace ∈ traces, Outranked s.begun trace
  | .erase e, s => ∀ e' ∈ s.erased, e'.userId = e.userId → Answers e e'
  | _, _ => True

instance : ∀ l s, Decidable (Orderly l s)
  | .lockUsers _ _ traces, s =>
    inferInstanceAs (Decidable (∀ trace ∈ traces, Outranked s.begun trace))
  | .erase e, s =>
    inferInstanceAs (Decidable (∀ e' ∈ s.erased, e'.userId = e.userId → Answers e e'))
  | .clear _, _ => .isTrue trivial
  | .other, _ => .isTrue trivial

/-- **The invariant of every interleaving.** -/
structure FinalInv (clock : Clocks) (n : ℕ) (s : Store) (γ : ℕ → Phase) : Prop where
  traces : Owned s.traces TraceRow.write s.erased γ
  spans : Owned s.spans SpanRow.write s.erased γ
  linked : Linked s.traces s.spans γ
  barrier : Barrier clock s.erasures s.erased s.now γ
  knows : ∀ t, (γ t).Knows clock s.now s.begun s.erased
  recorded : Recorded clock s

/-- Safety of a program of the system. -/
abbrev Final {α : Type} (clock : Clocks) (t : ℕ) (Q : α → Phase → Prop) (p : Run α) (g : Phase) :
    Prop :=
  Safe (FinalInv clock) (fun l s => Timely clock l s ∧ Orderly l s) t Q p g

/-! ### What the threads know -/

theorem Phase.Knows.mono {now now' : ℕ} {begun begun' erased : List Erasure}
    (h : g.Knows clock now begun erased) (hnow : now ≤ now') (hbegun : begun ⊆ begun') :
    g.Knows clock now' begun' erased := by
  cases g with
  | idle => trivial
  | admitted moment => exact le_trans h hnow
  | writing users fine owned => exact h
  | erasing e stage => exact ⟨hbegun h.1, h.2⟩
  | forgetting cutoff users =>
    obtain ⟨replica, hr⟩ := h
    exact ⟨replica, le_trans hr ((clock.strictMono replica).monotone hnow)⟩

theorem Phase.Knows.erased {now : ℕ} {begun erased : List Erasure} {e : Erasure}
    (h : g.Knows clock now begun erased) (hu : ¬g.holds e.userId) :
    g.Knows clock now begun (e :: erased) := by
  cases g with
  | idle => trivial
  | admitted moment => exact h
  | writing users fine owned =>
    intro trace htrace
    obtain ⟨hin, hclean⟩ := h trace htrace
    refine ⟨hin, fun e' he' heu => ?_⟩
    rcases mem_cons.mp he' with rfl | hold
    · exact absurd (hin _ heu) hu
    · exact hclean e' hold heu
  | erasing e₁ stage =>
    refine ⟨h.1, fun hstage e' he' heu => ?_⟩
    rcases mem_cons.mp he' with rfl | hold
    · cases stage with
      | begun => exact absurd rfl hstage
      | locked => exact absurd heu hu
      | set => exact absurd heu hu
      | deleted => exact absurd heu hu
    · exact h.2 hstage e' hold heu
  | forgetting cutoff users => exact h

theorem knows_update {γ : ℕ → Phase} {now : ℕ} {begun erased : List Erasure}
    (h : ∀ t, (γ t).Knows clock now begun erased) (hg : g.Knows clock now begun erased) :
    ∀ t', (update γ t g t').Knows clock now begun erased := by
  intro t'
  by_cases ht : t' = t
  · rw [ht, update_self]
    exact hg
  · rw [update_of_ne ht]
    exact h t'

namespace FinalInv
variable {n : ℕ} {s : Store} {γ : ℕ → Phase}

theorem exclusive (h : FinalInv clock n s γ) : Exclusive γ := h.barrier.exclusive

/-- A thread with no rows open in the tables of traces and spans moves on to another such phase, by
a statement on the erasure rows. -/
theorem quiet_step {erasures : Table UserId (Option Instant)} (h : FinalInv clock n s γ)
    (hγ : (γ t).Quiet) (hd : ∀ u, ¬g.deletes u)
    (hw : ∀ users fine owned, g = .writing users fine owned → owned = [])
    (hT : Table.Writes t s.erasures erasures)
    (hheld : ∀ u, g.holds u → (erasures.row u).heldBy t = true)
    (hsets : ∀ u v, (erasures.row u).dirty = some (t, v) → g.sets u (s.erasures.get u) v)
    (hg : g.Knows clock s.now s.begun s.erased) :
    FinalInv clock n { s with erasures := erasures } (update γ t g) :=
  { traces := h.traces.phase_quiet hγ hd
    spans := h.spans.phase_quiet hγ hd
    linked := h.linked.phase fun users fine owned hwrite p hp => by
      rw [hw users fine owned hwrite] at hp
      cases hp
    barrier := h.barrier.step hT hheld hsets
    knows := knows_update h.knows hg
    recorded := ⟨h.recorded.submitted, h.recorded.begun, h.recorded.erased, h.recorded.refusals⟩ }

theorem idle_step (h : FinalInv clock n s γ) (hγ : (γ t).Quiet) (hd : ∀ u, ¬g.deletes u)
    (hw : ∀ users fine owned, g ≠ .writing users fine owned)
    (hh : ∀ u, ¬g.holds u) (hs : ∀ u c v, (γ t).sets u c v → g.sets u c v)
    (hg : g.Knows clock s.now s.begun s.erased) : FinalInv clock n s (update γ t g) :=
  h.quiet_step hγ hd (fun users fine owned e => absurd e (hw users fine owned))
    (Table.Writes.refl t s.erasures) (fun u hu => absurd hu (hh u))
    (fun u v hv => hs u _ v (h.barrier.sets u t v hv)) hg

/-- **A rollback**, from anywhere. -/
theorem rollback (h : FinalInv clock n s γ) : FinalInv clock n (s.rollback t) (update γ t .idle) :=
  { traces := h.traces.rollback Phase.quiet_idle
    spans := h.spans.rollback Phase.quiet_idle
    linked := h.linked.rollback fun _ _ _ e => by cases e
    barrier := h.barrier.rollback fun _ hu => hu
    knows := knows_update h.knows trivial
    recorded := ⟨h.recorded.submitted, h.recorded.begun, h.recorded.erased, h.recorded.refusals⟩ }

theorem commit (h : FinalInv clock n s γ) (hγ : ∀ e stage, γ t ≠ .erasing e stage) :
    FinalInv clock n (s.commit t) (update γ t .idle) :=
  { traces := h.traces.commit h.exclusive Phase.quiet_idle fun _ he => .inl he
    spans := h.spans.commit h.exclusive Phase.quiet_idle fun _ he => .inl he
    linked := h.linked.commit h.traces h.spans h.exclusive fun _ _ _ e => by cases e
    barrier := h.barrier.commit hγ (h.knows t) fun _ hu => hu
    knows := knows_update h.knows trivial
    recorded := ⟨h.recorded.submitted, h.recorded.begun, h.recorded.erased, h.recorded.refusals⟩ }

/-- **An erasure commits.** -/
theorem commitErasure {e : Erasure} (h : FinalInv clock n s γ) (hγ : γ t = .erasing e .deleted) :
    FinalInv clock n { s.commit t with erased := e :: s.erased } (update γ t .idle) := by
  have hknows := h.knows t
  rw [hγ] at hknows
  have hnew : ∀ e' ∈ e :: s.erased, e' ∈ s.erased ∨ (γ t).deletes e'.userId := by
    intro e' he'
    rcases mem_cons.mp he' with rfl | hold
    · exact .inr (by rw [hγ]; exact rfl)
    · exact .inl hold
  refine
    { traces := h.traces.commit h.exclusive Phase.quiet_idle hnew
      spans := h.spans.commit h.exclusive Phase.quiet_idle hnew
      linked := h.linked.commit h.traces h.spans h.exclusive fun _ _ _ e => by cases e
      barrier := h.barrier.commitErasure hγ (hknows.2 nofun) fun _ hu => hu
      knows := fun t' => ?_
      recorded := ⟨h.recorded.submitted, h.recorded.begun, fun e' he' => ?_, fun x hx => ?_⟩ }
  · by_cases ht : t' = t
    · rw [ht, update_self]
      trivial
    · rw [update_of_ne ht]
      refine (h.knows t').erased fun hu => ht ?_
      exact h.exclusive _ _ _ hu (by rw [hγ]; exact rfl)
  · rcases mem_cons.mp he' with rfl | hold
    · exact hknows.1
    · exact h.recorded.erased e' hold
  · refine (h.recorded.refusals x hx).imp_left ?_
    rintro ⟨e', he', hu⟩
    exact ⟨e', mem_cons_of_mem _ he', hu⟩

end FinalInv

/-! ### Acts of every program -/

theorem final_rollback : Final clock t (fun _ _ => True) rollback g := by
  intro n s γ b s' ht hI hg hC hf
  cases hf
  exact ⟨.idle, hI.rollback, trivial⟩

variable (replica : ℕ)

theorem final_readClock : Final clock t (fun _ g' => g' = g) (readClock clock replica) g :=
  Safe.read fun _ _ _ _ _ _ _ => rfl

theorem final_readMembers : Final clock t (fun _ g' => g' = g) readMembers g :=
  Safe.read fun _ _ _ _ _ _ _ => rfl

theorem final_lockWorkspaces (workspaces : List WorkspaceId) :
    Final clock t (fun _ g' => g' = g) (lockWorkspaces workspaces) g := by
  intro n s γ b s' ht hI hg hC hf
  obtain ⟨barriers, -, heq⟩ := map_eq_some_iff.mp hf
  obtain ⟨-, rfl⟩ := Prod.mk.inj heq
  refine ⟨g, ?_, rfl⟩
  rw [← hg, update_eq_self]
  exact ⟨hI.traces, hI.spans, hI.linked, hI.barrier, hI.knows,
    ⟨hI.recorded.submitted, hI.recorded.begun, hI.recorded.erased, hI.recorded.refusals⟩⟩

/-! ### Taking work in -/

theorem final_captureGeneration (work : Work) :
    Final clock t (fun _ g' => g' = g) (captureGeneration work) g := by
  rw [captureGeneration]
  split
  · exact Safe.bind (Safe.read fun _ _ _ _ _ _ _ => rfl) fun _ _ hg' => hg'
  · exact rfl

theorem final_admit : Final clock t (fun moment g' => g' = .admitted moment) readMoment .idle := by
  intro n s γ b s' ht hI hg hC hf
  cases hf
  refine ⟨.admitted s.now, hI.idle_step ?_ (fun _ h => h) (fun _ _ _ e => by cases e)
    (fun _ h => h) ?_ le_rfl, rfl⟩
  · rw [hg]
    exact Phase.quiet_idle
  · rw [hg]
    exact fun _ _ _ h => h

theorem final_readMoment (moment : ℕ) :
    Final clock t (fun recorded g' => moment ≤ recorded ∧ g' = .admitted moment) readMoment
      (.admitted moment) := by
  refine Safe.read fun n s γ ht hI hg hC => ⟨?_, rfl⟩
  have hknows := hI.knows t
  rw [hg] at hknows
  exact hknows

theorem stamped_writes (work : Work) {moment recorded : ℕ} (hm : moment ≤ recorded)
    (contentGeneration : Option ℕ) : ∀ trace ∈ work.writes ⟨work.source, work.replica, moment⟩
      (work.capturedAt (clock.read work.replica moment) (clock.read work.replica recorded))
      contentGeneration, Stamped clock trace := by
  intro trace htrace
  obtain ⟨draft, -, rfl⟩ := mem_map.mp htrace
  have hle := (clock.strictMono work.replica).monotone hm
  cases hsource : work.source with
  | request => exact ⟨by simp [Work.capturedAt, hsource], fun _ => by simp [Work.capturedAt, hsource]⟩
  | «export» => exact ⟨by simp [Work.capturedAt, hsource], fun _ => by simp [Work.capturedAt, hsource]⟩
  | priced => exact ⟨by simpa [Work.capturedAt, hsource] using hle, fun h => absurd rfl h⟩

theorem final_submit {writes : List TraceWrite} (h : ∀ trace ∈ writes, Stamped clock trace) :
    Final clock t (fun _ _ => True) (submit writes) g := by
  intro n s γ b s' ht hI hg hC hf
  cases hf
  refine ⟨g, ?_, trivial⟩
  rw [← hg, update_eq_self]
  refine ⟨hI.traces, hI.spans, hI.linked, hI.barrier, hI.knows,
    ⟨fun trace htrace => ?_, hI.recorded.begun, hI.recorded.erased, hI.recorded.refusals⟩⟩
  rcases mem_append.mp htrace with hold | hnew
  · exact hI.recorded.submitted trace hold
  · exact h trace hnew

theorem final_takeIn (work : Work) : Final clock t (fun _ _ => True) (takeIn clock work) .idle := by
  refine Safe.bind final_admit fun moment g hg => ?_
  subst hg
  refine Safe.bind (final_captureGeneration work) fun contentGeneration g hg => ?_
  subst hg
  refine Safe.bind (final_readMoment moment) fun recorded g hg => ?_
  obtain ⟨hm, rfl⟩ := hg
  exact Safe.bind (final_submit (stamped_writes work hm contentGeneration)) fun _ _ _ => trivial

/-! ### A batch -/

theorem final_takeBatch (picks : List ℕ) :
    Final clock t (fun traces g => g = .idle ∧ ∀ trace ∈ traces, Stamped clock trace)
      (takeBatch replica picks) .idle := by
  refine Safe.read fun n s γ ht hI hg hC => ⟨rfl, fun trace htrace => ?_⟩
  obtain ⟨i, -, hi⟩ := mem_filterMap.mp (mem_filter.mp htrace).1
  exact hI.recorded.submitted trace (mem_of_getElem? hi)

/-- The writes of a batch that no erasure outranks. -/
def fineOf (erased : UserId → Option Instant) (writtenAt : Instant) (traces : List TraceWrite) :
    List TraceWrite :=
  traces.filter fun trace => ¬refused trace erased writtenAt

theorem final_lockUsers (writtenAt : Instant) {traces : List TraceWrite}
    (hstamp : ∀ trace ∈ traces, Stamped clock trace) : Final clock t
      (fun erased g => g = .writing (usersOf traces) (fineOf erased writtenAt traces) [])
      (lockUsers replica writtenAt traces) .idle := by
  intro n s γ b s' ht hI hg hC hf
  obtain ⟨erasures, hlock, heq⟩ := map_eq_some_iff.mp hf
  obtain ⟨rfl, rfl⟩ := Prod.mk.inj heq
  have hseen : ∀ u, s.erasures.seen t u = s.erasures.get u :=
    hI.barrier.seen_eq_get fun _ _ _ h => by rw [hg] at h; exact h
  have herased : ∀ trace ∈ traces, ∀ u, trace.userId = some u →
      (if u ∈ usersOf traces then (s.erasures.seen t u).getD none else none) =
        (s.erasures.get u).getD none := by
    intro trace htrace u hu
    have hin : u ∈ usersOf traces := mem_filterMap.mpr ⟨trace, htrace, hu⟩
    rw [if_pos hin, hseen]
  refine ⟨.writing (usersOf traces) (fineOf _ writtenAt traces) [], ?_, rfl⟩
  have hstep := hI.quiet_step (t := t)
    (g := .writing (usersOf traces)
      (fineOf (fun u => if u ∈ usersOf traces then (s.erasures.seen t u).getD none else none)
        writtenAt traces) [])
    (by rw [hg]; exact Phase.quiet_idle) (fun _ h => h) (fun _ _ _ e => by cases e; rfl)
    (Table.writes_lock hlock) (fun u hu => ?_) (fun u v hd => ?_) (fun trace htrace => ?_)
  · refine ⟨hstep.traces, hstep.spans, hstep.linked, hstep.barrier, hstep.knows,
      ⟨hI.recorded.submitted, hI.recorded.begun, hI.recorded.erased, fun x hx => ?_⟩⟩
    rcases mem_append.mp hx with hnew | hold
    · obtain ⟨trace, htrace, rfl⟩ := mem_map.mp hnew
      obtain ⟨hmem, hrefused⟩ := mem_filter.mp htrace
      exact refusal_justified (s := s) hI.barrier (hstamp trace hmem) (herased trace hmem) hrefused
    · exact hI.recorded.refusals x hold
  · exact Table.heldBy_lock hlock hu
  · rw [Table.row_lock hlock] at hd
    split at hd
    · rename_i hu
      obtain ⟨-, rfl⟩ := Cell.dirty_write.mp hd
      exact ⟨hu, by rw [hseen]⟩
    · have hsets := hI.barrier.sets u t v hd
      rw [hg] at hsets
      exact hsets.elim
  · obtain ⟨hmem, hnot⟩ := mem_filter.mp htrace
    exact ⟨fun u hu => mem_filterMap.mpr ⟨trace, hmem, hu⟩,
      clean_of_not_refused hI.recorded hI.barrier (hstamp trace hmem) (hC.2 trace hmem) hC.1
        (herased trace hmem) (by simpa using hnot)⟩

variable {users : List UserId} {fine : List TraceWrite}
  {owned : List (TraceKey × Option UserId)}

theorem final_createAbsent {rows : List (TraceKey × TraceRow)}
    (hrows : ∀ p ∈ rows, p.2.write ∈ fine ∧ p.2.userId = p.2.write.userId) :
    Final clock t (fun _ g => g = .writing users fine owned) (createAbsent rows)
      (.writing users fine owned) := by
  intro n s γ b s' ht hI hg hC hf
  obtain ⟨r, hinsert, heq⟩ := map_eq_some_iff.mp hf
  obtain ⟨-, rfl⟩ := Prod.mk.inj heq
  have hknows := hI.knows t
  rw [hg] at hknows
  have hdel : ∀ u, ¬(γ t).deletes u := by
    rw [hg]
    exact fun _ h => h
  have hgone : ∀ k, (s.traces.row k).dirty ≠ some (t, none) := by
    intro k hd
    obtain ⟨_, u, -, -, hu⟩ := hI.traces.deletes k t hd
    exact hdel u hu
  have hT := Table.writes_insertNew hinsert
  -- what the transaction has open is what it had, or a row that went in
  have hopen : ∀ k a, (r.2.row k).dirty = some (t, a) → (s.traces.row k).dirty = some (t, a) ∨
      k ∈ r.1 ∧ s.traces.seen t k = none ∧ ∃ row, (k, row) ∈ rows ∧ a = some row := by
    intro k a hd
    by_cases hk : k ∈ r.1
    · obtain ⟨-, hnone, row, hrow, heq⟩ := Table.of_mem_insertNew hinsert hk
      rw [heq] at hd
      exact .inr ⟨hk, hnone, row, hrow, (Cell.dirty_write.mp hd).2⟩
    · rw [Table.of_not_mem_insertNew hinsert hk] at hd
      exact .inl hd
  refine ⟨.writing users fine owned, ?_, rfl⟩
  rw [← hg, update_eq_self]
  refine ⟨hI.traces.write_step hT hdel fun k a hd => ?_, hI.spans,
    hI.linked.trace_step hT (fun k row hd => ?_) fun k hd => ?_, hI.barrier, hI.knows,
    ⟨hI.recorded.submitted, hI.recorded.begun, hI.recorded.erased, hI.recorded.refusals⟩⟩
  · rcases hopen k a hd with hold | ⟨-, -, row, hrow, rfl⟩
    · exact .inl hold
    · obtain ⟨hin, hclean⟩ := hknows row.write (hrows _ hrow).1
      refine .inr ⟨row, rfl, ?_, hclean⟩
      rw [hg]
      exact hin
  · rcases hopen k _ hd with hold | ⟨-, hnone, row', hrow, hrr⟩
    · exact .inl ⟨row, Table.seen_of_dirty hold, rfl, rfl⟩
    · cases hrr
      refine .inr ⟨?_, hnone, (hrows _ hrow).2⟩
      rcases s.traces.seen_cases t k with ⟨a, ha, hs⟩ | ⟨-, hs⟩
      · rw [hnone] at hs
        exact absurd (hs ▸ ha) (hgone k)
      · rw [← hs, hnone]
  · rcases hopen k _ hd with hold | ⟨-, -, row, -, hrr⟩
    · exact hgone k hold
    · cases hrr

theorem final_holders (keys : List TraceKey)
    (hfine : ∀ trace ∈ fine, ∀ u, trace.userId = some u → u ∈ users) : Final clock t
      (fun held g => ∃ owned, g = .writing users fine owned ∧
        ∀ trace ∈ fine, held trace.key = some trace.userId → (trace.key, trace.userId) ∈ owned)
      (holders keys) (.writing users fine []) := by
  intro n s γ held s' ht hI hg hC hf
  cases hf
  let read : TraceKey → Option (Option UserId) := fun key =>
    if key ∈ keys then (s.traces.seen t key).map TraceRow.userId else none
  let owned := (fine.filter fun trace => read trace.key = some trace.userId).map fun trace =>
    (trace.key, trace.userId)
  have howned : ∀ p ∈ owned, (∀ u, p.2 = some u → u ∈ users) ∧
      ∃ r, s.traces.seen t p.1 = some r ∧ r.write.userId = p.2 := by
    intro p hp
    obtain ⟨trace, htrace, rfl⟩ := mem_map.mp hp
    obtain ⟨hmem, hread⟩ := mem_filter.mp htrace
    refine ⟨hfine trace hmem, ?_⟩
    have hread : read trace.key = some trace.userId := of_decide_eq_true hread
    change (if _ then _ else _) = _ at hread
    split at hread
    · obtain ⟨r, hr, hu⟩ := map_eq_some_iff.mp hread
      exact ⟨r, hr, by rw [← hI.linked.user_of_seen hr, hu]⟩
    · cases hread
  have hknows := hI.knows t
  rw [hg] at hknows
  refine ⟨.writing users fine owned, ?_, owned, rfl, fun trace htrace hread => ?_⟩
  · refine ⟨hI.traces.phase (fun user hw => by rwa [hg] at hw) fun u => by rw [hg]; exact Iff.rfl,
      hI.spans.phase (fun user hw => by rwa [hg] at hw) fun u => by rw [hg]; exact Iff.rfl,
      hI.linked.phase (fun _ _ _ e => by cases e; exact howned),
      hI.barrier.phase (fun u hu => by rw [hg]; exact hu) fun u c v hv => by rwa [hg] at hv,
      knows_update hI.knows hknows, hI.recorded⟩
  · exact mem_map.mpr ⟨trace, mem_filter.mpr ⟨htrace, decide_eq_true hread⟩, rfl⟩

theorem final_insertNew {rows : List (SpanKey × SpanRow)}
    (hrows : ∀ p ∈ rows, p.2.write ∈ fine ∧ (SpanKey.trace p.1, p.2.write.userId) ∈ owned) :
    Final clock t (fun _ g => g = .writing users fine owned) (insertNew rows)
      (.writing users fine owned) := by
  intro n s γ b s' ht hI hg hC hf
  have hknows := hI.knows t
  rw [hg] at hknows
  refine ⟨.writing users fine owned, ?_, ?_⟩
  swap
  · exact rfl
  rw [← hg, update_eq_self]
  obtain ⟨r, hinsert, heq⟩ := bind_eq_some_iff.mp hf
  dsimp only at heq
  split at heq
  · cases heq
  split at heq
  · cases heq
    exact hI
  cases heq
  have hopen : ∀ k a, (r.2.row k).dirty = some (t, a) → (s.spans.row k).dirty = some (t, a) ∨
      ∃ row, (k, row) ∈ rows ∧ a = some row := by
    intro k a hd
    by_cases hk : k ∈ r.1
    · obtain ⟨-, -, row, hrow, heq⟩ := Table.of_mem_insertNew hinsert hk
      rw [heq] at hd
      exact .inr ⟨row, hrow, (Cell.dirty_write.mp hd).2⟩
    · rw [Table.of_not_mem_insertNew hinsert hk] at hd
      exact .inl hd
  have hT := Table.writes_insertNew hinsert
  refine ⟨hI.traces, hI.spans.write_step hT (by rw [hg]; exact fun _ h => h) fun k a hd => ?_,
    hI.linked.span_step hT fun k row hd => ?_, hI.barrier, hI.knows,
    ⟨hI.recorded.submitted, hI.recorded.begun, hI.recorded.erased, hI.recorded.refusals⟩⟩
  · rcases hopen k a hd with hold | ⟨row, hrow, rfl⟩
    · exact .inl hold
    · obtain ⟨hin, hclean⟩ := hknows row.write (hrows _ hrow).1
      refine .inr ⟨row, rfl, ?_, hclean⟩
      rw [hg]
      exact hin
  · rcases hopen k _ hd with hold | ⟨row', hrow, hrr⟩
    · exact hI.linked.unstored k t row hold
    · cases hrr
      exact (hI.linked.owned t users fine owned hg _ (hrows _ hrow).2).2

theorem final_addTotals {grown : List (TraceGrowth × List SpanRecord)}
    (hgrown : ∀ p ∈ grown, ∃ user, (p.1.key, user) ∈ owned) :
    Final clock t (fun _ g => g = .writing users fine owned) (addTotals grown)
      (.writing users fine owned) := by
  intro n s γ b s' ht hI hg hC hf
  obtain ⟨r, hupdate, heq⟩ := map_eq_some_iff.mp hf
  obtain ⟨-, rfl⟩ := Prod.mk.inj heq
  have hopen : ∀ k a, (r.2.row k).dirty = some (t, a) → (s.traces.row k).dirty = some (t, a) ∨
      ∃ row row', s.traces.seen t k = some row ∧ a = some row' ∧ row'.write = row.write ∧
        row'.userId = row.userId ∧ (γ t).writes row.write.userId := by
    intro k a hd
    rcases Table.row_update_cases hupdate k with ⟨heq, -⟩ | ⟨hk, -, row, hseen, heq⟩
    · rw [heq] at hd
      exact .inl hd
    · rw [heq] at hd
      obtain ⟨-, rfl⟩ := Cell.dirty_write.mp hd
      obtain ⟨p, hp, rfl⟩ := mem_map.mp hk
      obtain ⟨user, howned⟩ := hgrown p hp
      obtain ⟨hin, row', hseen', hu⟩ := hI.linked.owned t users fine owned hg _ howned
      rw [hseen] at hseen'
      cases hseen'
      refine .inr ⟨row, _, hseen, rfl, ?_, ?_, ?_⟩
      · cases grown.find? fun g => g.1.key = p.1.key <;> rfl
      · cases grown.find? fun g => g.1.key = p.1.key <;> rfl
      · rw [hg, hu]
        exact hin
  have hT := Table.writes_update hupdate
  refine ⟨.writing users fine owned, ?_, rfl⟩
  rw [← hg, update_eq_self]
  refine ⟨hI.traces.write_step hT (by rw [hg]; exact fun _ h => h) fun k a hd => ?_, hI.spans,
    hI.linked.trace_step hT (fun k row hd => ?_) fun k hd => ?_, hI.barrier, hI.knows,
    ⟨hI.recorded.submitted, hI.recorded.begun, hI.recorded.erased, hI.recorded.refusals⟩⟩
  · rcases hopen k a hd with hold | ⟨row, row', hseen, rfl, hw, -, hwrites⟩
    · exact .inl hold
    · exact .inr ⟨row', rfl, by rwa [hw], by rw [hw]; exact hI.traces.clean_of_seen hseen⟩
  · rcases hopen k _ hd with hold | ⟨row₀, row', hseen, hrr, hw, hu, -⟩
    · exact .inl ⟨row, Table.seen_of_dirty hold, rfl, rfl⟩
    · cases hrr
      exact .inl ⟨row₀, hseen, hw, hu⟩
  · rcases hopen k _ hd with hold | ⟨_, _, _, hrr, _⟩
    · obtain ⟨_, u, -, -, hu⟩ := hI.traces.deletes k t hold
      rw [hg] at hu
      exact hu
    · cases hrr

theorem final_commit (hg : ∀ e stage, g ≠ .erasing e stage) :
    Final clock t (fun _ _ => True) commit g := by
  intro n s γ b s' ht hI hγ hC hf
  cases hf
  exact ⟨.idle, hI.commit fun e stage => by rw [hγ]; exact hg e stage, trivial⟩

theorem final_storeSpans (writtenAt : Instant) (keep : TraceWrite → Bool) {kept : List KeptSpan}
    (hkept : ∀ k ∈ kept, (k.trace.key, k.trace.userId) ∈ owned) (traces : List TraceWrite)
    (inserted : Option (List SpanKey)) :
    Final clock t (fun _ _ => True) (storeSpans writtenAt keep kept traces inserted)
      (.writing users fine owned) := by
  cases inserted with
  | none => exact final_rollback
  | some inserted =>
    refine Safe.bind (final_addTotals fun p hp => ?_) fun _ g hg => ?_
    · obtain ⟨group, hgroup, rfl⟩ := mem_map.mp hp
      obtain ⟨rows, hrows, rfl⟩ := mem_map.mp hgroup
      obtain ⟨⟨k, hk, hkey⟩, -⟩ := Grouping.mem_groupBy.mp hrows
      refine ⟨k.trace.userId, ?_⟩
      have hmem := hkept k ((Distinct.claim_sublist inserted kept).mem hk)
      rw [hkey] at hmem
      exact hmem
    · subst hg
      exact Safe.bind (final_commit fun _ _ e => by cases e) fun _ _ _ => trivial

theorem final_writeLocked (writtenAt : Instant)
    (batch : List (TraceWrite × List (SpanId × Sealed))) (erased : UserId → Option Instant)
    (generations : WorkspaceId → Option ℕ) :
    Final clock t (fun _ _ => True) (writeLocked writtenAt batch erased generations)
      (.writing (usersOf (batch.map Prod.fst)) (fineOf erased writtenAt (batch.map Prod.fst)) []) := by
  let traces := batch.map Prod.fst
  have hfine : ∀ trace ∈ fineOf erased writtenAt traces, ∀ u, trace.userId = some u →
      u ∈ usersOf traces := fun trace htrace u hu =>
    mem_filterMap.mpr ⟨trace, (mem_filter.mp htrace).1, hu⟩
  refine Safe.bind final_readMembers fun members g hg => ?_
  subst hg
  refine Safe.bind (final_createAbsent fun p hp => ?_) fun _ g hg => ?_
  · obtain ⟨trace, htrace, rfl⟩ := mem_map.mp hp
    exact ⟨Distinct.mem_of_mem_firsts htrace, rfl⟩
  subst hg
  refine Safe.bind (final_holders _ hfine) fun held g hg => ?_
  obtain ⟨owned, rfl, howned⟩ := hg
  -- a write that is kept is fine, and its trace is its user's
  have hkeep : ∀ k ∈ keptSpans (isKept erased writtenAt held) batch,
      k.trace ∈ fineOf erased writtenAt traces ∧ (k.trace.key, k.trace.userId) ∈ owned := by
    intro k hk
    obtain ⟨hbatch, hkeep, -⟩ := of_mem_keptSpans hk
    obtain ⟨hnot, hheld⟩ : ¬refused k.trace erased writtenAt = true ∧
        held k.trace.key = some k.trace.userId := by simpa [isKept] using hkeep
    have hmem : k.trace ∈ fineOf erased writtenAt traces :=
      mem_filter.mpr ⟨mem_map_of_mem hbatch, by simpa using hnot⟩
    exact ⟨hmem, howned _ hmem hheld⟩
  refine Safe.bind (final_insertNew fun p hp => ?_) fun inserted g hg => ?_
  · obtain ⟨k, hk, rfl⟩ := of_mem_rowsOf hp
    exact hkeep k hk
  subst hg
  exact final_storeSpans writtenAt _ (fun k hk => (hkeep k hk).2) _ inserted

/-- **A batch.** -/
theorem final_write (picks : List ℕ) (answer : ℕ → Option String) :
    Final clock t (fun _ _ => True) (write clock replica picks answer) .idle := by
  refine Safe.bind (final_takeBatch replica picks) fun traces g hg => ?_
  obtain ⟨rfl, hstamp⟩ := hg
  refine Safe.bind (final_readClock replica) fun writtenAt g hg => ?_
  subst hg
  refine Safe.bind (final_lockUsers replica writtenAt hstamp) fun erased g hg => ?_
  subst hg
  refine Safe.bind (final_lockWorkspaces _) fun generations g hg => ?_
  subst hg
  have hsafe : Final clock t _ (writeLocked writtenAt (sealed answer traces) erased
      generations) _ := final_writeLocked writtenAt (sealed answer traces) erased generations
  rwa [map_fst_sealed] at hsafe

/-! ### An erasure -/

variable {e : Erasure}

theorem final_beginErasure (userId : UserId) :
    Final clock t (fun e g => g = .erasing e .begun ∧ e.userId = userId)
      (beginErasure clock replica userId) .idle := by
  intro n s γ b s' ht hI hg hC hf
  cases hf
  refine ⟨.erasing ⟨userId, s.now, clock.read replica s.now⟩ .begun, ?_, rfl, rfl⟩
  have hquiet : (γ t).Quiet := by
    rw [hg]
    exact Phase.quiet_idle
  refine ⟨hI.traces.phase_quiet hquiet (fun _ h => h), hI.spans.phase_quiet hquiet (fun _ h => h),
    hI.linked.phase (fun _ _ _ e => by cases e),
    hI.barrier.phase (fun _ h => h.elim) (fun _ _ _ h => by rw [hg] at h; exact h.elim),
    knows_update (fun u => (hI.knows u).mono le_rfl (subset_cons_self _ _))
      ⟨mem_cons_self, fun h => absurd rfl h⟩,
    ⟨hI.recorded.submitted, fun e' he' => ?_, fun e' he' =>
      mem_cons_of_mem _ (hI.recorded.erased e' he'), hI.recorded.refusals⟩⟩
  rcases mem_cons.mp he' with rfl | hold
  · exact ⟨replica, rfl⟩
  · exact hI.recorded.begun e' hold

theorem final_lockErased :
    Final clock t (fun _ g => g = .erasing e .locked) (lockErased e) (.erasing e .begun) := by
  intro n s γ b s' ht hI hg hC hf
  obtain ⟨erasures, hlock, heq⟩ := map_eq_some_iff.mp hf
  obtain ⟨-, rfl⟩ := Prod.mk.inj heq
  have hknows := hI.knows t
  rw [hg] at hknows
  refine ⟨.erasing e .locked, hI.quiet_step (by rw [hg]; exact Phase.quiet_erasing nofun)
    (fun _ h => h) (fun _ _ _ h => by cases h) (Table.writes_lock hlock) (fun u hu => ?_)
    (fun u v hd => ?_) ⟨hknows.1, fun _ => hC.2⟩, rfl⟩
  · exact Table.heldBy_lock hlock (mem_singleton.mpr hu)
  · rw [Table.row_lock hlock] at hd
    split at hd
    · rename_i hin
      obtain ⟨-, rfl⟩ := Cell.dirty_write.mp hd
      have hseen : s.erasures.seen t u = s.erasures.get u :=
        hI.barrier.seen_eq_get (fun _ _ _ h => by rw [hg] at h; exact h) u
      exact ⟨mem_singleton.mp hin, by rw [hseen]⟩
    · have hsets := hI.barrier.sets u t v hd
      rw [hg] at hsets
      exact hsets.elim

theorem final_setErasedAt :
    Final clock t (fun _ g => g = .erasing e .set) (setErasedAt e) (.erasing e .locked) := by
  intro n s γ b s' ht hI hg hC hf
  obtain ⟨r, hupdate, heq⟩ := map_eq_some_iff.mp hf
  obtain ⟨-, rfl⟩ := Prod.mk.inj heq
  have hknows := hI.knows t
  rw [hg] at hknows
  obtain ⟨v, hv⟩ := Cell.heldBy_iff.mp (hI.barrier.held t e.userId (by rw [hg]; exact rfl))
  have hval := hI.barrier.sets _ t v hv
  rw [hg] at hval
  have hseen := Table.seen_of_dirty hv
  rw [hval.2] at hseen
  obtain ⟨-, hrow⟩ := Table.of_mem_update hupdate (mem_singleton_self _) hseen
  refine ⟨.erasing e .set, hI.quiet_step (by rw [hg]; exact Phase.quiet_erasing nofun)
    (fun _ h => h) (fun _ _ _ h => by cases h) (Table.writes_update hupdate) (fun u hu => ?_)
    (fun u w hd => ?_) ⟨hknows.1, fun _ => hknows.2 nofun⟩, rfl⟩
  · obtain rfl : u = e.userId := hu
    rw [hrow]
    exact Cell.heldBy_write _ _ _
  · by_cases hu : u = e.userId
    · subst hu
      rw [hrow] at hd
      exact ⟨rfl, (Cell.dirty_write.mp hd).2⟩
    · rcases Table.row_update_cases hupdate u with ⟨heq, -⟩ | ⟨hmem, -⟩
      · rw [heq] at hd
        have hsets := hI.barrier.sets u t w hd
        rw [hg] at hsets
        exact absurd hsets.1 hu
      · exact absurd (mem_singleton.mp hmem) hu

/-- **The delete** takes every trace of the user, and every span with its trace. -/
theorem final_deleteTraces : Final clock t (fun _ g => g = .erasing e .deleted)
      (deleteTraces fun row => row.userId = some e.userId) (.erasing e .set) := by
  intro n s γ b s' ht hI hg hC hf
  obtain ⟨rT, hupdateT, hf⟩ := bind_eq_some_iff.mp hf
  obtain ⟨rS, hupdateS, heq⟩ := map_eq_some_iff.mp hf
  obtain ⟨-, rfl⟩ := Prod.mk.inj heq
  have hquiet : (γ t).Quiet := by
    rw [hg]
    exact Phase.quiet_erasing nofun
  have hseenT : ∀ k, s.traces.seen t k = s.traces.get k := fun k =>
    Table.seen_of_free fun a => hI.traces.free hquiet k a
  have hseenS : ∀ k, s.spans.seen t k = s.spans.get k := fun k =>
    Table.seen_of_free fun a => hI.spans.free hquiet k a
  have hT := Table.writes_update hupdateT
  have hS := Table.writes_update hupdateS
  -- a trace is selected exactly where it is the user's
  have hselect : ∀ k r, s.traces.get k = some r →
      (k ∈ s.traces.select t (fun _ row => row.userId = some e.userId) ↔
        r.write.userId = some e.userId) := by
    intro k r hr
    rw [Table.mem_select, hseenT, hr, ← hI.linked.user k r hr]
    simp
  have hopenT : ∀ k a, (rT.2.row k).dirty = some (t, a) →
      a = none ∧ ∃ r, s.traces.get k = some r ∧ r.write.userId = some e.userId := by
    intro k a hd
    rcases Table.row_update_cases hupdateT k with ⟨heq, -⟩ | ⟨hk, -, r, hr, heq⟩
    · rw [heq] at hd
      exact absurd hd (hI.traces.free hquiet k a)
    · rw [heq] at hd
      rw [hseenT] at hr
      exact ⟨(Cell.dirty_write.mp hd).2, r, hr, (hselect k r hr).mp hk⟩
  have hopenS : ∀ k a, (rS.2.row k).dirty = some (t, a) →
      a = none ∧ ∃ r, s.spans.get k = some r ∧ r.write.userId = some e.userId := by
    intro k a hd
    rcases Table.row_update_cases hupdateS k with ⟨heq, -⟩ | ⟨hk, -, row, hr, heq⟩
    · rw [heq] at hd
      exact absurd hd (hI.spans.free hquiet k a)
    · rw [heq] at hd
      rw [hseenS] at hr
      obtain ⟨r, hget, hu⟩ := hI.linked.stored k row hr
      have htrace := of_decide_eq_true (mem_filter.mp hk).2
      exact ⟨(Cell.dirty_write.mp hd).2, row, hr, by rw [← hu, (hselect _ r hget).mp htrace]⟩
  refine ⟨.erasing e .deleted,
    ⟨hI.traces.delete_step hT hquiet (fun k r hr hu => ?_) hopenT,
      hI.spans.delete_step hS hquiet (fun k row hr hu => ?_) hopenS,
      hI.linked.delete_step hT hS (fun k a hd => (hopenT k a hd).1)
        (fun k a hd => (hopenS k a hd).1) (fun _ _ _ h => by cases h),
      hI.barrier.phase (fun u hu => by rw [hg]; exact hu)
        (fun u c v hv => by rw [hg] at hv; exact hv),
      knows_update hI.knows ?_,
      ⟨hI.recorded.submitted, hI.recorded.begun, hI.recorded.erased, hI.recorded.refusals⟩⟩, rfl⟩
  · obtain ⟨-, heq⟩ := Table.of_mem_update hupdateT ((hselect k r hr).mpr hu) (by rw [hseenT, hr])
    rw [heq]
    rfl
  · obtain ⟨r, hget, hur⟩ := hI.linked.stored k row hr
    have hk : k ∈ s.spans.keys.filter fun key => SpanKey.trace key ∈
        s.traces.select t (fun _ row => row.userId = some e.userId) := by
      refine mem_filter.mpr ⟨s.spans.mem_keys hr, decide_eq_true ?_⟩
      exact (hselect _ r hget).mpr (hur.trans hu)
    obtain ⟨-, heq⟩ := Table.of_mem_update hupdateS hk (by rw [hseenS, hr])
    rw [heq]
    rfl
  · have hknows := hI.knows t
    rw [hg] at hknows
    exact ⟨hknows.1, fun _ => hknows.2 nofun⟩

theorem final_commitErasure :
    Final clock t (fun _ _ => True) (commitErasure e) (.erasing e .deleted) := by
  intro n s γ b s' ht hI hg hC hf
  cases hf
  exact ⟨.idle, hI.commitErasure hg, trivial⟩

/-- **An erasure.** -/
theorem final_purgeUser (userId : UserId) :
    Final clock t (fun _ _ => True) (purgeUser clock replica userId) .idle := by
  refine Safe.bind (final_beginErasure replica userId) fun e g hg => ?_
  obtain ⟨rfl, rfl⟩ := hg
  refine Safe.bind final_lockErased fun _ g hg => ?_
  subst hg
  refine Safe.bind final_setErasedAt fun _ g hg => ?_
  subst hg
  refine Safe.bind final_deleteTraces fun _ g hg => ?_
  subst hg
  exact Safe.bind final_commitErasure fun _ _ _ => trivial

/-! ### The sweep that forgets erasures -/

variable {cutoff : Instant}

theorem final_readCutoff :
    Final clock t (fun now g => g = .forgetting (now - erasureMargin - erasureKeptFor) [])
      (readClock clock replica) .idle := by
  intro n s γ b s' ht hI hg hC hf
  cases hf
  refine ⟨.forgetting (clock.read replica s.now - erasureMargin - erasureKeptFor) [],
    hI.idle_step (by rw [hg]; exact Phase.quiet_idle) (fun _ h => h) (fun _ _ _ h => by cases h)
      (fun _ h => by cases h) (by rw [hg]; exact fun _ _ _ h => h.elim) ⟨replica, by linarith⟩, rfl⟩

theorem final_lockForgettable {users : List UserId} :
    Final clock t (fun users g => g = .forgetting cutoff users) (lockForgettable cutoff)
      (.forgetting cutoff users) := by
  intro n s γ b s' ht hI hg hC hf
  obtain ⟨erasures, hlock, heq⟩ := map_eq_some_iff.mp hf
  obtain ⟨rfl, rfl⟩ := Prod.mk.inj heq
  have hknows := hI.knows t
  rw [hg] at hknows
  refine ⟨.forgetting cutoff (s.forgettable t cutoff), hI.quiet_step (by rw [hg]; exact Phase.quiet_forgetting _ _)
    (fun _ h => h) (fun _ _ _ h => by cases h) (Table.writes_lock hlock) (fun u hu => ?_)
    (fun u v hd => ?_) hknows, rfl⟩
  · exact Table.heldBy_lock hlock hu
  · rw [Table.row_lock hlock] at hd
    split at hd
    · rename_i hu
      obtain ⟨-, rfl⟩ := Cell.dirty_write.mp hd
      have hmem := (mem_insertionSort (· ≤ ·)).mp (mem_of_mem_take hu)
      obtain ⟨erasedAt, hseen, hforget⟩ := Table.mem_select.mp (mem_filter.mp hmem).1
      rw [hseen]
      rcases s.erasures.seen_cases t u with ⟨a, ha, hs⟩ | ⟨-, hs⟩
      · have hsets := hI.barrier.sets u t a ha
        rw [hg] at hsets
        rw [← hs, hseen] at hsets
        exact ⟨.inl (hsets.1.resolve_right nofun), hsets.2⟩
      · rw [← hs, hseen]
        exact ⟨.inl rfl, hforget⟩
    · have hsets := hI.barrier.sets u t v hd
      rw [hg] at hsets
      exact hsets

theorem final_deleteUsers {users : List UserId} :
    Final clock t (fun _ g => g = .forgetting cutoff users) (deleteUsers users)
      (.forgetting cutoff users) := by
  intro n s γ b s' ht hI hg hC hf
  obtain ⟨r, hupdate, heq⟩ := map_eq_some_iff.mp hf
  obtain ⟨-, rfl⟩ := Prod.mk.inj heq
  have hknows := hI.knows t
  rw [hg] at hknows
  refine ⟨.forgetting cutoff users, hI.quiet_step (by rw [hg]; exact Phase.quiet_forgetting _ _)
    (fun _ h => h) (fun _ _ _ h => by cases h) (Table.writes_update hupdate) (fun u hu => ?_)
    (fun u v hd => ?_) hknows, rfl⟩
  · have hheld := hI.barrier.held t u (by rw [hg]; exact hu)
    rcases Table.row_update_cases hupdate u with ⟨heq, -⟩ | ⟨-, -, a, -, heq⟩
    · rw [heq]
      exact hheld
    · rw [heq]
      exact Cell.heldBy_write _ _ _
  · rcases Table.row_update_cases hupdate u with ⟨heq, -⟩ | ⟨hu, -, a, -, heq⟩
    · rw [heq] at hd
      have hsets := hI.barrier.sets u t v hd
      rw [hg] at hsets
      exact hsets
    · rw [heq] at hd
      obtain ⟨w, hw⟩ := Cell.heldBy_iff.mp (hI.barrier.held t u (by rw [hg]; exact hu))
      have hsets := hI.barrier.sets u t w hw
      rw [hg] at hsets
      exact ⟨.inr (Cell.dirty_write.mp hd).2, hsets.2⟩

theorem final_forgetErasedBefore (rounds : ℕ) {users : List UserId} :
    Final clock t (fun _ _ => True) (forgetErasedBefore cutoff rounds)
      (.forgetting cutoff users) := by
  induction rounds generalizing users with
  | zero => exact final_rollback
  | succ rounds ih =>
    refine Safe.bind final_lockForgettable fun users g hg => ?_
    subst hg
    have hcommit : Final clock t (fun _ _ => True) (do commit; return Answer.done)
        (.forgetting cutoff users) :=
      Safe.bind (final_commit fun _ _ h => by cases h) fun _ _ _ => trivial
    split
    · exact hcommit
    · refine Safe.bind final_deleteUsers fun _ g hg => ?_
      subst hg
      split
      · exact hcommit
      · exact ih

theorem final_expireErasures (replica rounds : ℕ) :
    Final clock t (fun _ _ => True) (expireErasures clock replica rounds) .idle := by
  refine Safe.bind (final_readCutoff replica) fun now g hg => ?_
  subst hg
  exact final_forgetErasedBefore rounds

/-! ### Every interleaving -/

/-- The calls that trace work, write it, erase users and forget erasures. -/
def Op.tracesOrErases : Op → Prop
  | .takeIn _ => True
  | .write _ _ _ _ => True
  | .purgeUser _ _ _ => True
  | .expireErasures _ _ _ => True
  | _ => False

/-- A database no user was erased from yet: each trace is its write's user's, and each span its
trace's. -/
structure Unerased (s : Store) : Prop where
  settled : s.Settled
  owner : ∀ k r, s.traces.get k = some r → r.userId = r.write.userId
  linked : ∀ key row, s.spans.get key = some row →
    ∃ r, s.traces.get (SpanKey.trace key) = some r ∧ r.userId = row.write.userId
  erasures : ∀ u a, s.erasures.get u ≠ some (some a)
  submitted : s.submitted = []
  begun : s.begun = []
  erased : s.erased = []
  refusals : s.refusals = []

/-- No row is stored of work taken in before an erasure of its user that has committed. -/
def NeverReturns (s : Store) : Prop :=
  ∀ e ∈ s.erased,
    (∀ k r, s.traces.get k = some r → r.userId = some e.userId → e.moment ≤ r.write.intake.moment) ∧
    ∀ key row, s.spans.get key = some row → row.write.userId = some e.userId →
      e.moment ≤ row.write.intake.moment

/-- A write refused whose user was never erased was taken in more than 24 hours before. -/
def RefusesOnlyErased (clock : Clocks) (s : Store) : Prop :=
  ∀ x ∈ s.refusals, (∀ e ∈ s.erased, x.trace.userId ≠ some e.userId) →
    maxWriteAge < x.writtenAt - clock.read x.trace.intake.replica x.trace.intake.moment

theorem unerased_emptyStore : Unerased emptyStore :=
  ⟨settled_emptyStore, fun k r h => by simp [emptyStore] at h,
    fun key row h => by simp [emptyStore] at h, fun u a => by simp [emptyStore], rfl, rfl, rfl, rfl⟩

theorem finalInv_start {s : Store} (h : Unerased s) : FinalInv clock 0 s fun _ => .idle := by
  have hclean : ∀ trace, Clean s.erased trace := by
    intro trace e he
    rw [h.erased] at he
    cases he
  have hopenT : ∀ k t a, (s.traces.row k).dirty ≠ some (t, a) := fun k t a hd => by
    rw [h.settled.traces] at hd
    cases hd
  have hopenS : ∀ k t a, (s.spans.row k).dirty ≠ some (t, a) := fun k t a hd => by
    rw [h.settled.spans] at hd
    cases hd
  refine
    { traces := ⟨fun k t r hd => absurd hd (hopenT k t _), fun k t hd => absurd hd (hopenT k t _),
        fun _ _ _ _ _ _ hdel => hdel.elim, fun _ _ _ => hclean _, fun _ _ _ _ => hclean _⟩
      spans := ⟨fun k t r hd => absurd hd (hopenS k t _), fun k t hd => absurd hd (hopenS k t _),
        fun _ _ _ _ _ _ hdel => hdel.elim, fun _ _ _ => hclean _, fun _ _ _ _ => hclean _⟩
      linked := ⟨h.owner, fun k t r hd => absurd hd (hopenT k t _),
        fun k t _ _ hd => absurd hd (hopenT k t _), fun key row hr => ?_,
        fun k t r hd => absurd hd (hopenS k t _), fun _ _ _ _ ht => by cases ht⟩
      barrier := ⟨fun _ _ hu => hu.elim, fun u t v hd => ?_, fun e he => ?_,
        fun u a hu => absurd hu (h.erasures u a)⟩
      knows := fun _ => trivial
      recorded := ⟨?_, ?_, ?_, ?_⟩ }
  · obtain ⟨r, hr, hu⟩ := h.linked key row hr
    exact ⟨r, hr, by rw [← h.owner _ r hr, hu]⟩
  · rw [h.settled.erasures] at hd
    cases hd
  · rw [h.erased] at he
    cases he
  · simp [h.submitted]
  · simp [h.begun]
  · simp [h.erased]
  · simp [h.refusals]

theorem finalInv_env {n : ℕ} {s s' : Store} {γ : ℕ → Phase} {event : Event}
    (h : FinalInv clock n s γ) (he : event.apply s = some s') : FinalInv clock n s' γ := by
  cases event with
  | tick =>
    cases he
    exact ⟨h.traces, h.spans, h.linked, h.barrier.tick,
      fun t => (h.knows t).mono (Nat.le_succ _) (List.Subset.refl _),
      ⟨h.recorded.submitted, h.recorded.begun, h.recorded.erased, h.recorded.refusals⟩⟩
  | membership members =>
    cases he
    exact ⟨h.traces, h.spans, h.linked, h.barrier, h.knows,
      ⟨h.recorded.submitted, h.recorded.begun, h.recorded.erased, h.recorded.refusals⟩⟩
  | reorder keys =>
    obtain ⟨spans, hspans, rfl⟩ := map_eq_some_iff.mp he
    have hrow := Table.row_reorder hspans
    have hget : spans.get = s.spans.get := by
      funext k
      rw [Table.get, hrow, Table.get]
    refine ⟨h.traces, ⟨?_, ?_, ?_, ?_, ?_⟩, ⟨h.linked.user, h.linked.openUser, h.linked.same, ?_, ?_,
      h.linked.owned⟩, h.barrier, h.knows,
      ⟨h.recorded.submitted, h.recorded.begun, h.recorded.erased, h.recorded.refusals⟩⟩
    · simpa only [hrow] using h.spans.writes
    · simpa only [hrow, hget] using h.spans.deletes
    · simpa only [hrow, hget] using h.spans.gone
    · simpa only [hget] using h.spans.stored
    · simpa only [hrow] using h.spans.unstored
    · simpa only [hget] using h.linked.stored
    · simpa only [hrow] using h.linked.unstored

theorem final_program (op : {op : Op // op.tracesOrErases}) (t : ℕ) :
    Final clock t (fun _ _ => True) (op.1.program clock) .idle := by
  obtain ⟨op, hop⟩ := op
  cases op with
  | takeIn work => exact final_takeIn work
  | write replica picks answer stop =>
    exact (final_write replica picks answer).cut (fun _ => final_rollback) stop
  | purgeUser replica userId stop =>
    exact (final_purgeUser replica userId).cut (fun _ => final_rollback) stop
  | expireErasures replica rounds stop =>
    exact (final_expireErasures replica rounds).cut (fun _ => final_rollback) stop
  | expire idleBefore startedBefore stop => exact hop.elim
  | stopContent workspaceId stop => exact hop.elim
  | forgetContent workspaceId blocks stop => exact hop.elim

/-- **An erasure is final**, in every run in which the cost of priced requests and the erasures of
one user come in order. -/
theorem erasure_final (clock : Clocks)
    {m : Machine {op : Op // op.tracesOrErases} Statement Store Answer}
    (h : Reach (system clock Op.tracesOrErases Unerased)
      (fun l s => Timely clock l s ∧ Orderly l s) m) :
    NeverReturns m.store ∧ RefusesOnlyErased clock m.store := by
  obtain ⟨γ, hI, -, -⟩ := h.safe (I := FinalInv clock) (Q := fun _ _ _ => True) .idle
    (fun s hs => finalInv_start hs) (fun n s γ hI _ => ⟨hI.1, hI.2, hI.3, hI.4, hI.5, hI.6⟩)
    (fun n s γ event s' hI he => finalInv_env hI he) final_program
  constructor
  · intro e he
    constructor
    · intro k r hr hu
      exact hI.traces.stored k r hr e he (by rw [← hI.linked.user k r hr, hu])
    · exact fun key row hr hu => hI.spans.stored key row hr e he hu
  · intro x hx hnever
    refine (hI.recorded.refusals x hx).resolve_left ?_
    rintro ⟨e, he, hu⟩
    exact hnever e he hu

/-! ### Runs -/

/-- One replica, whose clock moves a minute each moment. -/
def minuteClock : Clocks where
  read := fun _ moment => minutes moment
  strictMono := fun _ a b h => by
    have : (a : ℤ) < b := by exact_mod_cast h
    simp only [minutes]
    linarith
  near := fun _ _ _ => by simp only [minutes]; linarith

def centSpan : SpanRecord :=
  { spanId := 9, kind := .llm, origin := .otlp, outcome := .ok, operation := some usageOperation,
    requestId := some "r", costSnapshot := some (1 / 100) }

def centWork (source : Source) : Work :=
  { source := source, replica := 0, workspaceId := 1, userId := some 7, captures := false,
    drafts := [⟨5, .otlp, [centSpan]⟩] }

/-- Work is received; its user is erased a minute after; and it is recorded and written. -/
def lateRun (source : Source) (late : ℕ) :
    List (Choice {op : Op // op.tracesOrErases} Event) :=
  List.flatten [[.spawn ⟨.takeIn (centWork source), trivial⟩, .run 0, .env .tick,
    .spawn ⟨.purgeUser 0 7 100, trivial⟩], List.replicate 5 (.run 1),
    List.replicate late (.env .tick), List.replicate 2 (.run 0),
    [.spawn ⟨.write 0 [0] (fun _ => none) 100, trivial⟩], List.replicate 10 (.run 2)]

theorem erasure_final_run : ∃ m, Reach (system minuteClock Op.tracesOrErases Unerased)
        (fun l s => Timely minuteClock l s ∧ Orderly l s) m ∧
      m.store.erased = [⟨7, 1, minutes 1⟩] ∧ m.store.refusals.length = 1 ∧
      NeverReturns m.store ∧ RefusesOnlyErased minuteClock m.store := by
  have hrun : ((Machine.mk emptyStore []).exec (system minuteClock Op.tracesOrErases Unerased)
      (fun l s => Timely minuteClock l s ∧ Orderly l s) (lateRun .export 30)).map
        (fun m => (m.store.erased, m.store.refusals.length)) = some ([⟨7, 1, minutes 1⟩], 1) := by
    decide +kernel
  obtain ⟨m, hm, hstate⟩ := Option.map_eq_some_iff.mp hrun
  obtain ⟨herased, hrefusals⟩ := Prod.mk.inj hstate
  have hreach := Reach.of_exec (.start unerased_emptyStore) hm
  exact ⟨m, hreach, herased, hrefusals, erasure_final minuteClock hreach⟩

/-- **The cost of a priced request returns.**  It is recorded ten minutes after its user was erased,
and carries that time. -/
theorem priced_cost_returns :
    ∃ m, Reach (system minuteClock Op.tracesOrErases Unerased) (Timely minuteClock) m ∧
      ¬NeverReturns m.store := by
  have hrun : ((Machine.mk emptyStore []).exec (system minuteClock Op.tracesOrErases Unerased)
      (Timely minuteClock) (lateRun .priced 10)).map
        (fun m => (m.store.erased, (m.store.spans.get (1, 5, 9)).map fun row =>
          (row.write.userId, row.write.intake.moment))) =
        some ([⟨7, 1, minutes 1⟩], some (some 7, 0)) := by
    decide +kernel
  obtain ⟨m, hm, hstate⟩ := Option.map_eq_some_iff.mp hrun
  obtain ⟨herased, hspan⟩ := Prod.mk.inj hstate
  obtain ⟨row, hrow, hwrite⟩ := Option.map_eq_some_iff.mp hspan
  obtain ⟨huser, hmoment⟩ := Prod.mk.inj hwrite
  refine ⟨m, .of_exec (.start unerased_emptyStore) hm, fun hnever => ?_⟩
  have hle := (hnever ⟨7, 1, minutes 1⟩ (by rw [herased]; exact List.mem_singleton_self _)).2 _ row
    hrow huser
  rw [hmoment] at hle
  exact absurd hle (by decide)

end Otari.Traces

import Otari.Support.Runs

/-!
# Support — Refreshing — a cache refreshed from tables that others write

A worker holds a cache that its lookups answer from.  Its refreshes overlap: each reads its tables one
at a time, at any moment, and then swaps the cache for what it made of them.  The committed states are
numbered, and a refresh a write triggered knows which one is the write's.  A refresh reads on a session
that may hold rows from before, and `view` is what its reads then return of a committed state.  `InStep`
says of a worker that its cache was made from rows no older than any write whose refresh has returned.

Where every swap's reads returned what was committed (`Current`), a cache that gives each refresh a
number as it starts, and drops a swap whose number an applied one has passed, is in step
(`inStep_of_numbered`): the numbers order what the refreshes may have seen.  One that does not is in step
where every swap is timely as well (`inStep_of_timely`), which is when none of its reads was made before
a write whose own refresh has returned.  Elsewhere it can hold the rows of before such a write
(`overtaken`, `heldBack`).
-/

namespace Refreshing
variable {ι D H C : Type}

/-- A refresh under way. -/
structure Refresh (ι H : Type) where
  /-- The committed state its write made, of one a write triggered. -/
  write : Option ℕ
  /-- The newest committed state as it started. -/
  after : ℕ
  /-- The rows its session holds. -/
  held : H
  /-- The committed state each read saw. -/
  seen : ι → Option ℕ

structure Worker (ι D H C : Type) where
  versions : List D
  cache : C
  started : ℕ := 0
  /-- The number of the refresh whose swap was applied last. -/
  applied : ℕ := 0
  underWay : ℕ → Option (Refresh ι H) := fun _ => none
  /-- The writes whose refreshes have returned.  A record, which no step reads. -/
  returned : List ℕ := []

inductive Action (ι D H : Type) where
  | commit (state : D)
  | start (write : Option ℕ) (held : H)
  | read (number : ℕ) (i : ι) (version : ℕ)
  | swap (number : ℕ)
  | fail (number : ℕ)

namespace Worker

/-- The worker with a refresh under way. -/
def put (w : Worker ι D H C) (number : ℕ) (refresh : Refresh ι H) : Worker ι D H C :=
  { w with underWay := Function.update w.underWay number (some refresh) }

def ended (w : Worker ι D H C) (number : ℕ) : Worker ι D H C :=
  { w with underWay := Function.update w.underWay number none }

variable [Fintype ι] [DecidableEq ι]

/-- What a refresh read, once it has read every table. -/
def rows (view : H → ι → D → D) (w : Worker ι D H C) (refresh : Refresh ι H) : Option (ι → D) :=
  if h : ∀ i, ((refresh.seen i).bind (w.versions[·]?)).isSome then
    some fun i => view refresh.held i (((refresh.seen i).bind (w.versions[·]?)).get (h i))
  else none

/-- One step.  A read sees a state committed since its refresh started. -/
def step (numbered : Bool) (view : H → ι → D → D) (build : (ι → D) → C) (w : Worker ι D H C) :
    Action ι D H → Option (Worker ι D H C)
  | .commit state => some { w with versions := w.versions ++ [state] }
  | .start write held =>
    if ∀ v ∈ write, v < w.versions.length then
      let started := w.put (w.started + 1) ⟨write, w.versions.length - 1, held, fun _ => none⟩
      some { started with started := w.started + 1 }
    else none
  | .read number i version =>
    (w.underWay number).bind fun refresh =>
      if version < w.versions.length ∧ refresh.after ≤ version ∧ refresh.seen i = none then
        some (w.put number { refresh with seen := Function.update refresh.seen i (some version) })
      else none
  | .swap number =>
    (w.underWay number).bind fun refresh =>
      (w.rows view refresh).map fun rows =>
        let w := { w.ended number with returned := w.returned ++ refresh.write.toList }
        if numbered = true ∧ number < w.applied then w
        else { w with cache := build rows, applied := number }
  | .fail number => some (w.ended number)

/-! ### What the cache holds -/

section
omit [Fintype ι] [DecidableEq ι]

/-- The cache was made from the tables as the committed states had them. -/
def MadeFrom (build : (ι → D) → C) (w : Worker ι D H C) (seen : ι → ℕ) : Prop :=
  ∃ rows : ι → D, (∀ i, w.versions[seen i]? = some (rows i)) ∧ w.cache = build rows

/-- Its rows are no older than any write whose refresh has returned. -/
def InStep (build : (ι → D) → C) (w : Worker ι D H C) : Prop :=
  w.returned = [] ∨ ∃ seen, MadeFrom build w seen ∧ ∀ v ∈ w.returned, ∀ i, v ≤ seen i

/-- A worker before its first refresh. -/
def Start (w : Worker ι D H C) : Prop :=
  w.versions ≠ [] ∧ w.applied = 0 ∧ w.started = 0 ∧ (∀ number, w.underWay number = none) ∧
    w.returned = []

/-- A swap none of whose reads was made before a write whose own refresh has returned. -/
def Timely (w : Worker ι D H C) (action : Action ι D H) : Prop :=
  ∀ number, action = .swap number → ∀ refresh, w.underWay number = some refresh →
    ∀ v ∈ w.returned, ∀ i version, refresh.seen i = some version → v ≤ version

/-- A swap whose reads returned what was committed: no row its session holds was changed since. -/
def Current (view : H → ι → D → D) (w : Worker ι D H C) (action : Action ι D H) : Prop :=
  ∀ number, action = .swap number → ∀ refresh, w.underWay number = some refresh →
    ∀ i version state, refresh.seen i = some version → w.versions[version]? = some state →
      view refresh.held i state = state

/-- Every refresh under way has read states committed since it started, and its write is one of those
before. -/
def Sound (w : Worker ι D H C) : Prop :=
  ∀ number refresh, w.underWay number = some refresh →
    (∀ i version, refresh.seen i = some version → refresh.after ≤ version) ∧
      ∀ v ∈ refresh.write, v ≤ refresh.after

variable {w : Worker ι D H C}

theorem MadeFrom.commit {build : (ι → D) → C} {seen : ι → ℕ}
    (h : MadeFrom build w seen) (state : D) :
    MadeFrom build { w with versions := w.versions ++ [state] } seen := by
  obtain ⟨rows, hrows, hcache⟩ := h
  refine ⟨rows, fun i => ?_, hcache⟩
  rw [List.getElem?_append_left (List.getElem?_eq_some_iff.mp (hrows i)).1]
  exact hrows i

theorem sound_of_start (h : w.Start) : w.Sound := by
  intro number refresh hrefresh
  rw [h.2.2.2.1 number] at hrefresh
  cases hrefresh

theorem underWay_put {number number' : ℕ} {refresh refresh' : Refresh ι H}
    (h : (w.put number refresh).underWay number' = some refresh') :
    (number' = number ∧ refresh' = refresh) ∨ w.underWay number' = some refresh' := by
  by_cases hn : number' = number
  · subst hn
    have hself : (w.put number' refresh).underWay number' = some refresh := Function.update_self ..
    exact .inl ⟨rfl, Option.some.inj (h.symm.trans hself)⟩
  · have hne : (w.put number refresh).underWay number' = w.underWay number' :=
      Function.update_of_ne hn ..
    exact .inr (hne.symm.trans h)

theorem underWay_ended {number number' : ℕ} {refresh : Refresh ι H}
    (h : (w.ended number).underWay number' = some refresh) : w.underWay number' = some refresh := by
  by_cases hn : number' = number
  · subst hn
    have hself : (w.ended number').underWay number' = none := Function.update_self ..
    cases h.symm.trans hself
  · have hne : (w.ended number).underWay number' = w.underWay number' := Function.update_of_ne hn ..
    exact hne.symm.trans h

theorem Sound.ended (h : w.Sound) (number : ℕ) : (w.ended number).Sound :=
  fun number' refresh hrefresh => h number' refresh (underWay_ended hrefresh)

end

variable {w : Worker ι D H C} {refresh : Refresh ι H} {view : H → ι → D → D}

omit [DecidableEq ι] in
theorem rows_spec {rows : ι → D} (h : w.rows view refresh = some rows) :
    ∃ seen : ι → ℕ, ∀ i, refresh.seen i = some (seen i) ∧
      ∃ state, w.versions[seen i]? = some state ∧ rows i = view refresh.held i state := by
  rw [Worker.rows] at h
  split at h
  · rename_i hall
    obtain rfl := Option.some.inj h
    have hseen : ∀ i, ∃ version, refresh.seen i = some version ∧
        w.versions[version]? = some (((refresh.seen i).bind (w.versions[·]?)).get (hall i)) :=
      fun i => Option.bind_eq_some_iff.mp (Option.some_get (hall i)).symm
    choose seen hseen using hseen
    exact ⟨seen, fun i => ⟨(hseen i).1, _, (hseen i).2, rfl⟩⟩
  · cases h

omit [DecidableEq ι] in
theorem rows_of_current {number : ℕ} {rows : ι → D}
    (hcurrent : Current view w (.swap number)) (hrefresh : w.underWay number = some refresh)
    (h : w.rows view refresh = some rows) :
    ∃ seen : ι → ℕ, ∀ i, refresh.seen i = some (seen i) ∧ w.versions[seen i]? = some (rows i) := by
  obtain ⟨seen, hseen⟩ := rows_spec h
  refine ⟨seen, fun i => ?_⟩
  obtain ⟨hread, state, hstate, hrow⟩ := hseen i
  have hsame : view refresh.held i state = state :=
    hcurrent number rfl refresh hrefresh i _ state hread hstate
  exact ⟨hread, by rw [hrow, hsame, hstate]⟩

variable {numbered : Bool} {build : (ι → D) → C}

variable {w' : Worker ι D H C} {action : Action ι D H}

theorem step_cases (h : w.step numbered view build action = some w') :
    (∃ state, w' = { w with versions := w.versions ++ [state] }) ∨
    (∃ write held, (∀ v ∈ write, v < w.versions.length) ∧
      w' = { w.put (w.started + 1) ⟨write, w.versions.length - 1, held, fun _ => none⟩ with
        started := w.started + 1 }) ∨
    (∃ number i version refresh, w.underWay number = some refresh ∧ refresh.after ≤ version ∧
      w' = w.put number { refresh with seen := Function.update refresh.seen i (some version) }) ∨
    (∃ number refresh rows, action = .swap number ∧ w.underWay number = some refresh ∧
      w.rows view refresh = some rows ∧
      ((numbered = true ∧ number < w.applied ∧
          w' = { w.ended number with returned := w.returned ++ refresh.write.toList }) ∨
        ((numbered = true → w.applied ≤ number) ∧
          w' = { w.ended number with
            returned := w.returned ++ refresh.write.toList
            cache := build rows
            applied := number }))) ∨
    (∃ number, w' = w.ended number) := by
  cases action with
  | commit state => exact .inl ⟨state, (Option.some.inj h).symm⟩
  | start write held =>
    rw [step] at h
    split at h
    · rename_i hwrite
      exact .inr (.inl ⟨write, held, hwrite, (Option.some.inj h).symm⟩)
    · cases h
  | read number i version =>
    obtain ⟨refresh, hrefresh, h⟩ := Option.bind_eq_some_iff.mp h
    split at h
    · rename_i hread
      exact .inr (.inr (.inl ⟨number, i, version, refresh, hrefresh, hread.2.1,
        (Option.some.inj h).symm⟩))
    · cases h
  | swap number =>
    obtain ⟨refresh, hrefresh, h⟩ := Option.bind_eq_some_iff.mp h
    obtain ⟨rows, hrows, rfl⟩ := Option.map_eq_some_iff.mp h
    refine .inr (.inr (.inr (.inl ⟨number, refresh, rows, rfl, hrefresh, hrows, ?_⟩)))
    by_cases hlate : numbered = true ∧ number < w.applied
    · exact .inl ⟨hlate.1, hlate.2, if_pos hlate⟩
    · exact .inr ⟨fun hn => not_lt.mp fun hlt => hlate ⟨hn, hlt⟩, if_neg hlate⟩
  | fail number => exact .inr (.inr (.inr (.inr ⟨number, (Option.some.inj h).symm⟩)))

theorem Sound.step (hsound : w.Sound)
    (h : w.step numbered view build action = some w') : w'.Sound := by
  obtain ⟨state, rfl⟩ | ⟨write, held, hwrite, rfl⟩ | ⟨number, i, version, refresh, hrefresh, hafter, rfl⟩ |
    ⟨number, refresh, rows, -, -, -, ⟨-, -, rfl⟩ | ⟨-, rfl⟩⟩ | ⟨number, rfl⟩ := step_cases h
  · exact hsound
  · intro number refresh hrefresh
    obtain ⟨-, rfl⟩ | hold := underWay_put hrefresh
    · refine ⟨fun i version hseen => ?_, fun v hv => Nat.le_sub_one_of_lt (hwrite v hv)⟩
      cases hseen
    · exact hsound number refresh hold
  · intro number' refresh' hrefresh'
    obtain ⟨-, rfl⟩ | hold := underWay_put hrefresh'
    · obtain ⟨hseen, hwrite⟩ := hsound number refresh hrefresh
      refine ⟨fun j version' hj => ?_, hwrite⟩
      have hj : Function.update refresh.seen i (some version) j = some version' := hj
      by_cases hij : j = i
      · rw [hij, Function.update_self] at hj
        exact Option.some.inj hj ▸ hafter
      · rw [Function.update_of_ne hij] at hj
        exact hseen j version' hj
    · exact hsound number' refresh' hold
  · exact hsound.ended number
  · exact hsound.ended number
  · exact hsound.ended number

/-! ### Swaps in time -/

theorem InStep.step (hstep : InStep build w) (hsound : w.Sound) (hcurrent : Current view w action)
    (htimely : Timely w action)
    (h : w.step false view build action = some w') : InStep build w' := by
  obtain ⟨state, rfl⟩ | ⟨write, held, hwrite, rfl⟩ | ⟨number, i, version, refresh, hrefresh, hafter, rfl⟩ |
    ⟨number, refresh, rows, hswap, hrefresh, hrows, ⟨hnumbered, -, rfl⟩ | ⟨-, rfl⟩⟩ |
    ⟨number, rfl⟩ := step_cases h
  · exact hstep.imp id fun ⟨seen, hmade, hreturned⟩ => ⟨seen, hmade.commit state, hreturned⟩
  · exact hstep
  · exact hstep
  · cases hnumbered
  · obtain ⟨seen, hseen⟩ := rows_of_current (hswap ▸ hcurrent) hrefresh hrows
    refine .inr ⟨seen, ⟨rows, fun i => (hseen i).2, rfl⟩, fun v hv i => ?_⟩
    rcases List.mem_append.mp hv with hv | hv
    · exact htimely number hswap refresh hrefresh v hv i (seen i) (hseen i).1
    · obtain ⟨hread, hwrite⟩ := hsound number refresh hrefresh
      exact (hwrite v (Option.mem_toList.mp hv)).trans (hread i (seen i) (hseen i).1)
  · exact hstep

/-- **A cache whose swaps are current and timely is in step.** -/
theorem inStep_of_timely (h : Runs.Reached Start (step false view build)
      (fun w action => Current view w action ∧ Timely w action) w) : InStep build w := by
  have hkept : w.Sound ∧ InStep build w :=
    Runs.Reached.keeps (I := fun w => w.Sound ∧ InStep build w) h
      (fun w hstart => ⟨sound_of_start hstart, .inl hstart.2.2.2.2⟩)
      fun w action w' hinv hmet hstep =>
        ⟨hinv.1.step hstep, hinv.2.step hinv.1 hmet.1 hmet.2 hstep⟩
  exact hkept.2

/-! ### A refresh that is overtaken -/

section
omit [DecidableEq ι]

theorem rows_eq {w : Worker ι D H C} {refresh : Refresh ι H} {version : ℕ} {state : D}
    (hseen : ∀ i, refresh.seen i = some version) (hstate : w.versions[version]? = some state) :
    w.rows view refresh = some fun i => view refresh.held i state := by
  have hall : ∀ i, (refresh.seen i).bind (w.versions[·]?) = some state := by
    intro i
    rw [hseen i, Option.bind_some, hstate]
  rw [Worker.rows, dif_pos fun i => Option.isSome_iff_exists.mpr ⟨state, hall i⟩]
  simp only [hall, Option.get_some]

end

variable {P : Worker ι D H C → Prop}

/-- A refresh that has read nothing may read its tables, one after another, in one committed state. -/
theorem reached_reads {number version : ℕ}
    (h : Runs.Reached P (step numbered view build) (fun _ _ => True) w)
    (hrefresh : w.underWay number = some refresh) (hnone : refresh.seen = fun _ => none)
    (hversion : version < w.versions.length) (hafter : refresh.after ≤ version) {tables : List ι}
    (htables : tables.Nodup) : Runs.Reached P (step numbered view build) (fun _ _ => True)
      (w.put number { refresh with seen := fun i => if i ∈ tables then some version else none }) := by
  induction tables with
  | nil =>
    have hsame : w.put number { refresh with
        seen := fun i => if i ∈ ([] : List ι) then some version else none } = w := by
      have hseen : (fun i : ι => if i ∈ ([] : List ι) then some version else none) = refresh.seen := by
        simp [hnone]
      rw [hseen, put, ← hrefresh, Function.update_eq_self]
    rw [hsame]
    exact h
  | cons i tables ih =>
    obtain ⟨hi, hrest⟩ := List.nodup_cons.mp htables
    refine (ih hrest).step (a := .read number i version) trivial ?_
    have hput : (w.put number { refresh with
        seen := fun j => if j ∈ tables then some version else none }).underWay number =
          some { refresh with seen := fun j => if j ∈ tables then some version else none } :=
      Function.update_self ..
    rw [step, hput, Option.bind_some, if_pos ⟨hversion, hafter, if_neg hi⟩]
    rw [put, put, put, Function.update_idem]
    congr 5
    funext j
    by_cases hj : j = i <;> simp [hj]

theorem reached_read (h : Runs.Reached P (step numbered view build) (fun _ _ => True) w)
    (hversions : w.versions ≠ []) (write : Option ℕ) (held : H) (hwrite : ∀ v ∈ write, v < w.versions.length) :
    ∃ w' : Worker ι D H C, Runs.Reached P (step numbered view build) (fun _ _ => True) w' ∧
      w'.versions = w.versions ∧ w'.returned = w.returned ∧ w'.started = w.started + 1 ∧
      w'.applied = w.applied ∧ w'.underWay = Function.update w.underWay (w.started + 1)
        (some ⟨write, w.versions.length - 1, held, fun _ => some (w.versions.length - 1)⟩) := by
  have hstarted := h.step (a := .start write held) trivial (by rw [step, if_pos hwrite])
  refine ⟨_, reached_reads hstarted (Function.update_self ..) rfl
    (Nat.sub_lt (List.length_pos_of_ne_nil hversions) Nat.one_pos) le_rfl
    (Finset.nodup_toList Finset.univ), rfl, rfl, rfl, rfl, ?_⟩
  have hall : ∀ i : ι, i ∈ Finset.univ.toList := fun i => Finset.mem_toList.mpr (Finset.mem_univ i)
  simp only [put, hall, if_true, Function.update_idem]

theorem reached_swap (h : Runs.Reached P (step numbered view build) (fun _ _ => True) w)
    (number version : ℕ) (state : D) (hlatest : numbered = true → w.applied ≤ number)
    (hrefresh : w.underWay number = some refresh) (hseen : ∀ i, refresh.seen i = some version)
    (hstate : w.versions[version]? = some state) :
    ∃ w' : Worker ι D H C, Runs.Reached P (step numbered view build) (fun _ _ => True) w' ∧
      w'.versions = w.versions ∧ w'.returned = w.returned ++ refresh.write.toList ∧
      w'.underWay = Function.update w.underWay number none ∧ w'.started = w.started ∧
      w'.applied = number ∧ w'.cache = build fun i => view refresh.held i state := by
  have hstep : w.step numbered view build (.swap number) = some { w.ended number with
      returned := w.returned ++ refresh.write.toList
      cache := build fun i => view refresh.held i state
      applied := number } := by
    rw [step, hrefresh, Option.bind_some, rows_eq hseen hstate, Option.map_some,
      if_neg fun hlate => hlate.2.not_ge (hlatest hlate.1)]
  exact ⟨_, h.step trivial hstep, rfl, rfl, rfl, rfl, rfl, rfl⟩

/-- **A refresh that read before a write can swap after the write's refresh has returned.** -/
theorem overtaken (view : H → ι → D → D) (build : (ι → D) → C) (cache : C) (before after : D)
    (nothing : H) (hnothing : ∀ i state, view nothing i state = state) :
    ∃ w : Worker ι D H C, Runs.Reached Start (step false view build) (fun _ _ => True) w ∧
      w.versions = [before, after] ∧ w.returned = [1] ∧ w.cache = build fun _ => before := by
  let w : Worker ι D H C := { versions := [before], cache }
  have h₀ : Runs.Reached Start (step false view build) (fun _ _ => True) w :=
    .start ⟨List.cons_ne_nil _ _, rfl, rfl, fun _ => rfl, rfl⟩
  -- the slow refresh reads, and a write commits
  obtain ⟨w₁, h₁, hv₁, hr₁, hs₁, -, hu₁⟩ :=
    reached_read h₀ (List.cons_ne_nil _ _) none nothing (by simp)
  have h₂ := h₁.step (a := .commit after) trivial rfl
  -- the write's own refresh reads, and swaps
  obtain ⟨w₃, h₃, hv₃, hr₃, -, -, hu₃⟩ := reached_read h₂ (by simp) (some 1) nothing (by simp [hv₁, w])
  obtain ⟨w₄, h₄, hv₄, hr₄, hu₄, -⟩ := reached_swap h₃ 2 1 after (by simp)
    (by rw [hu₃, hs₁]; exact Function.update_self ..) (by simp [hv₁, w]) (by simp [hv₃, hv₁, w])
  -- and then the slow one swaps
  have hslow : w₄.underWay 1 = some ⟨none, 0, nothing, fun _ => some 0⟩ := by
    simp [hu₄, hu₃, hs₁, hu₁, w]
  obtain ⟨w₅, h₅, hv₅, hr₅, -, -, -, hcache⟩ := reached_swap h₄ 1 0 before (by simp) hslow
    (fun _ => rfl) (by simp [hv₄, hv₃, hv₁, w])
  exact ⟨w₅, h₅, by simp [hv₅, hv₄, hv₃, hv₁, w], by simp [hr₅, hr₄, hr₃, hr₁, w],
    by simpa only [hnothing] using hcache⟩

/-- **A refresh, numbered or not, can return rows its session holds from before a write whose refresh
has returned.** -/
theorem heldBack (numbered : Bool) (view : H → ι → D → D) (build : (ι → D) → C) (cache : C)
    (before after : D) (nothing held : H) :
    ∃ w : Worker ι D H C, Runs.Reached Start (step numbered view build) (fun _ _ => True) w ∧
      w.versions = [before, after] ∧ w.returned = [1, 0] ∧
      w.cache = build fun i => view held i after := by
  let w : Worker ι D H C := { versions := [before], cache }
  have h₀ : Runs.Reached Start (step numbered view build) (fun _ _ => True) w :=
    .start ⟨List.cons_ne_nil _ _, rfl, rfl, fun _ => rfl, rfl⟩
  -- the second write commits, and its refresh reads and swaps
  have h₁ := h₀.step (a := .commit after) trivial rfl
  obtain ⟨w₂, h₂, hv₂, hr₂, hs₂, ha₂, hu₂⟩ :=
    reached_read h₁ (by simp [w]) (some 1) nothing (by simp [w])
  obtain ⟨w₃, h₃, hv₃, hr₃, hu₃, hs₃, ha₃, -⟩ := reached_swap h₂ 1 1 after (fun _ => by simp [ha₂, w])
    (by rw [hu₂]; exact Function.update_self ..) (by simp [w]) (by simp [hv₂, w])
  -- then the first write's refresh, whose session still holds the row it wrote
  obtain ⟨w₄, h₄, hv₄, hr₄, -, ha₄, hu₄⟩ := reached_read h₃ (by simp [hv₃, hv₂, w]) (some 0) held
    (by simp [hv₃, hv₂, w])
  obtain ⟨w₅, h₅, hv₅, hr₅, -, -, -, hcache⟩ := reached_swap h₄ 2 1 after
    (fun _ => by simp [ha₄, ha₃]) (by rw [hu₄, hs₃, hs₂]; exact Function.update_self ..)
    (by simp [hv₃, hv₂, w]) (by simp [hv₄, hv₃, hv₂, w])
  exact ⟨w₅, h₅, by simp [hv₅, hv₄, hv₃, hv₂, w], by simp [hr₅, hr₄, hr₃, hr₂, w], hcache⟩

/-! ### Numbered refreshes -/

omit [Fintype ι] [DecidableEq ι] in
/-- The invariant of a numbered cache, where `after` is the newest committed state as a number was
given out. -/
structure Ordered (build : (ι → D) → C) (w : Worker ι D H C) (after : ℕ → ℕ) : Prop where
  mono : Monotone after
  bound : ∀ number, after number ≤ w.versions.length - 1
  underWay : ∀ number refresh, w.underWay number = some refresh →
    0 < number ∧ number ≤ w.started ∧ refresh.after = after number
  applied_le : w.applied ≤ w.started
  returned_le : ∀ v ∈ w.returned, v ≤ after w.applied
  made : w.applied ≠ 0 → ∃ seen, MadeFrom build w seen ∧ ∀ i, after w.applied ≤ seen i
  none_returned : w.applied = 0 → w.returned = []

omit [Fintype ι] [DecidableEq ι] in
theorem Ordered.inStep {after : ℕ → ℕ} (h : Ordered build w after) : InStep build w := by
  by_cases hzero : w.applied = 0
  · exact .inl (h.none_returned hzero)
  · obtain ⟨seen, hmade, hseen⟩ := h.made hzero
    exact .inr ⟨seen, hmade, fun v hv i => (h.returned_le v hv).trans (hseen i)⟩

omit [Fintype ι] [DecidableEq ι] in
theorem ordered_of_start (h : w.Start) : Ordered build w fun _ => 0 where
  mono := monotone_const
  bound _ := Nat.zero_le _
  underWay number refresh hrefresh := by
    rw [h.2.2.2.1 number] at hrefresh
    cases hrefresh
  applied_le := by rw [h.2.1]; exact Nat.zero_le _
  returned_le v hv := by
    rw [h.2.2.2.2] at hv
    cases hv
  made hne := absurd h.2.1 hne
  none_returned _ := h.2.2.2.2

theorem Ordered.step {after : ℕ → ℕ} (hord : Ordered build w after)
    (hsound : w.Sound) (hcurrent : Current view w action) (h : w.step true view build action = some w') :
    ∃ after', Ordered build w' after' := by
  obtain ⟨state, rfl⟩ | ⟨write, held, hwrite, rfl⟩ | ⟨number, i, version, refresh, hrefresh, hafter, rfl⟩ |
    ⟨number, refresh, rows, hswap, hrefresh, hrows, ⟨-, hlate, rfl⟩ | ⟨hlatest, rfl⟩⟩ |
    ⟨number, rfl⟩ := step_cases h
  · refine ⟨after, { hord with bound := fun number => ?_, made := fun hne => ?_ }⟩
    · have hbound := hord.bound number
      rw [List.length_append]
      omega
    · obtain ⟨seen, hmade, hseen⟩ := hord.made hne
      exact ⟨seen, hmade.commit state, hseen⟩
  · -- the new number comes after all the newest committed state
    have hagree : ∀ number ≤ w.started,
        (if number ≤ w.started then after number else w.versions.length - 1) = after number :=
      fun number hnumber => if_pos hnumber
    refine ⟨fun number => if number ≤ w.started then after number else w.versions.length - 1, ?_⟩
    refine ⟨fun m n hmn => ?_, fun number => ?_, fun number refresh hrefresh => ?_,
      hord.applied_le.trans (Nat.le_succ _), fun v hv => ?_, fun hne => ?_, hord.none_returned⟩
    · split_ifs with hm hn hn
      · exact hord.mono hmn
      · exact hord.bound m
      · omega
      · exact le_rfl
    · dsimp only
      split_ifs
      · exact hord.bound number
      · exact le_rfl
    · obtain ⟨rfl, rfl⟩ | hold := underWay_put hrefresh
      · exact ⟨Nat.succ_pos _, le_rfl, (if_neg (Nat.not_succ_le_self _)).symm⟩
      · obtain ⟨hpos, hle, hafter⟩ := hord.underWay number refresh hold
        exact ⟨hpos, hle.trans (Nat.le_succ _), hafter.trans (hagree number hle).symm⟩
    · exact (hord.returned_le v hv).trans_eq (hagree w.applied hord.applied_le).symm
    · obtain ⟨seen, hmade, hseen⟩ := hord.made hne
      exact ⟨seen, hmade, fun i => (hagree w.applied hord.applied_le).trans_le (hseen i)⟩
  · refine ⟨after, { hord with underWay := fun number' refresh' hrefresh' => ?_ }⟩
    obtain ⟨rfl, rfl⟩ | hold := underWay_put hrefresh'
    · exact hord.underWay number' refresh hrefresh
    · exact hord.underWay number' refresh' hold
  · -- its swap is dropped: the one applied may have seen all its write could
    refine ⟨after, { hord with
      underWay := fun number' refresh' h' => hord.underWay number' refresh' (underWay_ended h')
      returned_le := fun v hv => ?_
      none_returned := fun hzero => absurd (hzero ▸ hlate) (Nat.not_lt_zero _) }⟩
    rcases List.mem_append.mp hv with hv | hv
    · exact hord.returned_le v hv
    · calc v ≤ refresh.after := (hsound number refresh hrefresh).2 v (Option.mem_toList.mp hv)
        _ = after number := (hord.underWay number refresh hrefresh).2.2
        _ ≤ after w.applied := hord.mono hlate.le
  · obtain ⟨hpos, hnumber, hafter⟩ := hord.underWay number refresh hrefresh
    obtain ⟨hread, hwrite⟩ := hsound number refresh hrefresh
    obtain ⟨seen, hseen⟩ := rows_of_current (hswap ▸ hcurrent) hrefresh hrows
    have hle : w.applied ≤ number := hlatest rfl
    refine ⟨after, hord.mono, hord.bound,
      fun number' refresh' h' => hord.underWay number' refresh' (underWay_ended h'), hnumber,
      fun v hv => ?_, fun _ => ⟨seen, ⟨rows, fun i => (hseen i).2, rfl⟩, fun i => ?_⟩,
      fun hzero => absurd hzero hpos.ne'⟩
    · rcases List.mem_append.mp hv with hv | hv
      · exact (hord.returned_le v hv).trans (hord.mono hle)
      · exact (hwrite v (Option.mem_toList.mp hv)).trans_eq hafter
    · exact hafter.symm.trans_le (hread i (seen i) (hseen i).1)
  · exact ⟨after, { hord with
      underWay := fun number' refresh' h' => hord.underWay number' refresh' (underWay_ended h') }⟩

/-- **A cache that numbers its refreshes is in step where its swaps are current.** -/
theorem inStep_of_numbered
    (h : Runs.Reached Start (step true view build) (Current view) w) : InStep build w := by
  have hkept : w.Sound ∧ ∃ after, Ordered build w after :=
    Runs.Reached.keeps (I := fun w => w.Sound ∧ ∃ after, Ordered build w after) h
      (fun w hstart => ⟨sound_of_start hstart, _, ordered_of_start hstart⟩)
      fun w action w' hinv hcurrent hstep =>
        let ⟨_, hord⟩ := hinv.2
        ⟨hinv.1.step hstep, hord.step hinv.1 hcurrent hstep⟩
  obtain ⟨-, after, hord⟩ := hkept
  exact hord.inStep

end Worker
end Refreshing

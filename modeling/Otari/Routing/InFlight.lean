import Otari.Routing.Automatic

/-!
# Routing — InFlight — what a worker counts is what is in flight

The counter of a record is the number of the unfinished observations that hold it, in every state a
worker reaches (`Exact`).  That an evicted record is idle is what keeps an observation and the
dictionary on one record, so a record nothing counts is never left with calls in flight.
-/

namespace Otari.Routing
open List
open Documents (get set without get_set_self get_set_of_ne get_without get_append mem_set get_nil
  get_cons_self)

/-! ### Counting -/

theorem countP_set_add {α : Type} (p : α → Bool) {l : List α} {i : ℕ} {a : α} (b : α)
    (h : l[i]? = some a) :
    (l.set i b).countP p + (if p a then 1 else 0) = l.countP p + if p b then 1 else 0 := by
  induction l generalizing i with
  | nil => simp at h
  | cons first rest ih =>
    cases i with
    | zero =>
      obtain rfl : first = a := by simpa using h
      simp only [set_cons_zero, countP_cons]
      omega
    | succ i =>
      have := ih (i := i) (by simpa using h)
      simp only [set_cons_succ, countP_cons]
      omega

/-- Whether an observation is unfinished and holds a record. -/
def AutomaticObservation.holds (observation : AutomaticObservation) (record : ℕ) : Bool :=
  !observation.finished && observation.health = some record

variable {observation : AutomaticObservation}

@[simp] theorem AutomaticObservation.holds_iff {record : ℕ} :
    observation.holds record ↔ observation.finished = false ∧ observation.health = some record := by
  simp [AutomaticObservation.holds]

def Worker.inFlight (worker : Worker) (record : ℕ) : ℕ :=
  worker.observations.countP fun observation => observation.holds record

/-! ### The invariant -/

/-- The counters are exact, and a record in flight is the one its candidate has. -/
structure Exact (worker : Worker) : Prop where
  /-- A candidate has one record. -/
  single : ∀ entry ∈ worker.router.health, get worker.router.health entry.1 = some entry.2
  entry_made : ∀ entry ∈ worker.router.health, entry.2 < worker.router.created
  held_made : ∀ observation ∈ worker.observations, ∀ record,
    observation.health = some record → record < worker.router.created
  counted : ∀ record, (worker.router.records record).active = worker.inFlight record
  kept : ∀ observation ∈ worker.observations, ∀ record, observation.holds record →
    get worker.router.health observation.key = some record

theorem Exact.fresh : Exact {} where
  single := by simp
  entry_made := by simp
  held_made := by simp
  counted := fun _ => rfl
  kept := by simp

variable {worker : Worker}

theorem Exact.rebind (h : Exact worker) (affinities : OrderedDict (String × ℚ)) :
    Exact { worker with router := { worker.router with affinities := affinities } } :=
  ⟨h.single, h.entry_made, h.held_made, h.counted, h.kept⟩

theorem Exact.inFlight_created (h : Exact worker) : worker.inFlight worker.router.created = 0 := by
  refine countP_eq_zero.mpr fun observation hmem hholds => ?_
  exact (h.held_made observation hmem _ (AutomaticObservation.holds_iff.mp hholds).2).false

variable {key : String}

theorem Exact.mem_of_get (h : Exact worker) {record : ℕ}
    (hget : get worker.router.health key = some record) : record < worker.router.created := by
  obtain ⟨before, after, hsplit, -⟩ := lookup_eq_some_iff.mp hget
  exact h.entry_made (key, record) (hsplit ▸ by simp)

/-! ### Tracking a candidate -/

theorem get_moveToEnd (d : OrderedDict ℕ) (key other : String) :
    get (moveToEnd d key) other = get d other := by
  unfold moveToEnd
  split
  · rename_i value hvalue
    rw [get_append, get_without]
    by_cases hk : other = key
    · subst hk
      simp [hvalue]
    · rw [if_neg (by simpa using hk), Documents.get_cons_of_ne (Ne.symm hk), get_nil, Option.or_none]
  · rfl

theorem mem_moveToEnd {d : OrderedDict ℕ} {entry : String × ℕ}
    (h : entry ∈ moveToEnd d key) : entry ∈ d ∨ get d entry.1 = some entry.2 := by
  unfold moveToEnd at h
  split at h
  · rename_i value hvalue
    rcases mem_append.mp h with h | h
    · exact .inl (mem_filter.mp h).1
    · obtain rfl := mem_singleton.mp h
      exact .inr hvalue
  · exact .inl h

theorem Exact.moved (h : Exact worker) (key : String) : Exact { worker with
      router := { worker.router with health := moveToEnd worker.router.health key } } where
  single := by
    intro entry hmem
    rw [get_moveToEnd]
    exact (mem_moveToEnd hmem).elim (h.single entry) id
  entry_made := by
    intro entry hmem
    exact (mem_moveToEnd hmem).elim (h.entry_made entry) h.mem_of_get
  held_made := h.held_made
  counted := h.counted
  kept := by
    intro observation hmem record hholds
    rw [get_moveToEnd]
    exact h.kept observation hmem record hholds

theorem Exact.evicted (h : Exact worker) {idle : String × ℕ}
    (hmem : idle ∈ worker.router.health) (hidle : (worker.router.records idle.2).active = 0) :
    Exact { worker with
      router := { worker.router with health := without [idle.1] worker.router.health } } where
  single := by
    intro entry hentry
    obtain ⟨hentry, hne⟩ := mem_filter.mp hentry
    rw [get_without, if_neg (by simpa using hne)]
    exact h.single entry hentry
  entry_made := fun entry hentry => h.entry_made entry (mem_filter.mp hentry).1
  held_made := h.held_made
  counted := h.counted
  kept := by
    intro observation hobs record hholds
    have hkept := h.kept observation hobs record hholds
    -- the record under the evicted key is the idle one, which nothing holds
    have hne : observation.key ≠ idle.1 := by
      intro he
      have hrecord : idle.2 = record := by
        have := h.single idle hmem
        rw [← he, hkept] at this
        exact (Option.some.inj this).symm
      have hnone : worker.inFlight record = 0 := by
        have := h.counted record
        rw [← hrecord, hidle, hrecord] at this
        exact_mod_cast this.symm
      exact countP_eq_zero.mp hnone observation hobs hholds
    rw [get_without, if_neg (by simpa using hne)]
    exact hkept

theorem Exact.created (h : Exact worker) (hkey : get worker.router.health key = none) :
    Exact { worker with router := (worker.router.create worker.router.health key).2 } where
  single := by
    intro entry hmem
    rcases mem_set hmem with rfl | hmem
    · exact get_set_self ..
    · have hsingle := h.single entry hmem
      have hne : entry.1 ≠ key := fun he => by simp [he, hkey] at hsingle
      exact (get_set_of_ne _ hne _).trans hsingle
  entry_made := by
    intro entry hmem
    rcases mem_set hmem with rfl | hmem
    · exact Nat.lt_succ_self _
    · exact Nat.lt_succ_of_lt (h.entry_made entry hmem)
  held_made := fun observation hobs record hrecord =>
    Nat.lt_succ_of_lt (h.held_made observation hobs record hrecord)
  counted := by
    intro record
    show (Function.update worker.router.records worker.router.created {} record).active = _
    by_cases hrecord : record = worker.router.created
    · subst hrecord
      rw [Function.update_self]
      exact congrArg Nat.cast h.inFlight_created.symm
    · rw [Function.update_of_ne hrecord]
      exact h.counted record
  kept := by
    intro observation hobs record hholds
    have hkept := h.kept observation hobs record hholds
    have hne : observation.key ≠ key := fun he => by simp [he, hkey] at hkept
    exact (get_set_of_ne _ hne _).trans hkept

/-- Tracking a candidate keeps the counters exact, and the record it returns is the one the
candidate has. -/
theorem Exact.healthFor (h : Exact worker) (key : String) :
    Exact { worker with router := (worker.router.healthFor key).2 } ∧
      ∀ record, (worker.router.healthFor key).1 = some record →
        get (worker.router.healthFor key).2.health key = some record := by
  unfold AutomaticRouter.healthFor
  split
  · rename_i record hrecord
    refine ⟨h.moved key, fun other hother => ?_⟩
    obtain rfl := Option.some.inj hother
    rw [get_moveToEnd]
    exact hrecord
  · rename_i hnone
    split
    · split
      · exact ⟨h, nofun⟩
      · rename_i idle hfind
        have hidle : (worker.router.records idle.2).active = 0 := by
          simpa using List.find?_some hfind
        have hevicted := h.evicted (mem_of_find?_eq_some hfind) hidle
        have hgone : get (without [idle.1] worker.router.health) key = none := by
          rw [get_without]
          split
          · rfl
          · exact hnone
        refine ⟨hevicted.created hgone, fun record hrecord => ?_⟩
        obtain rfl := Option.some.inj hrecord
        exact get_set_self ..
    · refine ⟨h.created hnone, fun record hrecord => ?_⟩
      obtain rfl := Option.some.inj hrecord
      exact get_set_self ..

/-! ### Steps -/

variable (router : AutomaticRouter)

theorem Worker.inFlight_push (worker : Worker) (observation : AutomaticObservation) (record : ℕ) :
    Worker.inFlight ⟨router, worker.observations ++ [observation]⟩ record
      = worker.inFlight record + if observation.holds record then 1 else 0 := by
  unfold Worker.inFlight
  rw [countP_append, countP_singleton]

theorem Worker.inFlight_set {i : ℕ} (replaced : AutomaticObservation)
    (h : worker.observations[i]? = some observation) (record : ℕ) :
    Worker.inFlight ⟨router, worker.observations.set i replaced⟩ record
        + (if observation.holds record then 1 else 0)
      = worker.inFlight record + if replaced.holds record then 1 else 0 :=
  countP_set_add (AutomaticObservation.holds · record) replaced h

theorem Exact.start (h : Exact worker) (now : ℚ)
    (selection : AutomaticSelection) (key selector : String) :
    Exact (worker.start now selection key selector) := by
  obtain ⟨htracked, hown⟩ := h.healthFor key
  unfold Worker.start
  rcases hfor : worker.router.healthFor key with ⟨health, router⟩
  rw [hfor] at htracked hown
  -- the dictionary and the records made are those tracking left
  have hhealth : (router.occupy health).health = router.health := by cases health <;> rfl
  have hmade : (router.occupy health).created = router.created := by cases health <;> rfl
  constructor
  · intro entry hmem
    rw [hhealth] at hmem ⊢
    exact htracked.single entry hmem
  · intro entry hmem
    rw [hhealth] at hmem
    rw [hmade]
    exact htracked.entry_made entry hmem
  · intro observation hobs record hrecord
    rw [hmade]
    rcases mem_append.mp hobs with hobs | hobs
    · exact htracked.held_made observation hobs record hrecord
    · obtain rfl := mem_singleton.mp hobs
      exact htracked.mem_of_get (hown record hrecord)
  · intro record
    have hcounted : (router.records record).active = worker.inFlight record :=
      htracked.counted record
    rw [Worker.inFlight_push]
    cases health with
    | none => simpa [AutomaticRouter.occupy, AutomaticObservation.holds] using hcounted
    | some own =>
      by_cases he : record = own
      · subst he
        simp [AutomaticRouter.occupy, AutomaticObservation.holds, hcounted]
      · have hne : own ≠ record := Ne.symm he
        simp [AutomaticRouter.occupy, AutomaticObservation.holds, Function.update_of_ne he,
          hcounted, hne]
  · intro observation hobs record hholds
    rw [hhealth]
    rcases mem_append.mp hobs with hobs | hobs
    · exact htracked.kept observation hobs record hholds
    · obtain rfl := mem_singleton.mp hobs
      exact hown record (AutomaticObservation.holds_iff.mp hholds).2

theorem AutomaticRouter.forgetKey_eq (affinity : Option String) (key : String) :
    ∃ affinities, router.forgetKey affinity key = { router with affinities := affinities } := by
  unfold forgetKey
  split
  · exact ⟨router.affinities, rfl⟩
  · split
    · exact ⟨_, rfl⟩
    · exact ⟨router.affinities, rfl⟩

/-- What finishing does to the records: the one it holds is released. -/
def AutomaticObservation.releases (observation : AutomaticObservation) (records : ℕ → Health)
    (now : ℚ) (success unhealthy : Bool) : ℕ → Health :=
  match observation.health with
  | some record =>
    Function.update records record (observation.released (records record) now success unhealthy)
  | none => records

theorem AutomaticObservation.report_eq (observation : AutomaticObservation)
    (router : AutomaticRouter) (now : ℚ) (success unhealthy : Bool) :
    ∃ affinities, observation.report router now success unhealthy = { router with
        records := observation.releases router.records now success unhealthy
        affinities := affinities } := by
  unfold report releases
  rcases observation.health with _ | record
  all_goals
    dsimp only
    cases unhealthy
    · cases success <;> cases observation.selection.affinity <;> exact ⟨_, rfl⟩
    · rw [if_pos rfl]
      obtain ⟨forgotten, hforget⟩ :=
        AutomaticRouter.forgetKey_eq _ observation.selection.affinity observation.key
      rw [hforget]
      cases success <;> cases observation.selection.affinity <;> exact ⟨_, rfl⟩

theorem AutomaticObservation.releases_active (observation : AutomaticObservation)
    (records : ℕ → Health) (now : ℚ) (success unhealthy : Bool) (record : ℕ) :
    (observation.releases records now success unhealthy record).active =
      if observation.health = some record then max 0 ((records record).active - 1)
      else (records record).active := by
  unfold releases
  cases observation.health with
  | none => simp
  | some own =>
    by_cases h : record = own
    · subst h
      simp [released]
    · have hne : own ≠ record := Ne.symm h
      simp [Function.update_of_ne h, hne]

theorem Exact.finish (h : Exact worker) (now : ℚ) (i : ℕ)
    (success unhealthy : Bool) : Exact (worker.finish now i success unhealthy) := by
  unfold Worker.finish
  split
  · exact h
  · rename_i observation hi
    split
    · exact h
    · rename_i hopen
      obtain ⟨affinities, hreport⟩ :=
        observation.report_eq worker.router now success unhealthy
      rw [hreport]
      have hobs := mem_of_getElem? hi
      constructor
      · exact h.single
      · exact h.entry_made
      · intro other hother record hrecord
        rcases mem_or_eq_of_mem_set hother with hother | rfl
        · exact h.held_made other hother record hrecord
        · exact h.held_made observation hobs record hrecord
      · intro record
        have hcount := Worker.inFlight_set
          { worker.router with
            records := observation.releases worker.router.records now success unhealthy
            affinities := affinities }
          { observation with finished := true } hi record
        have hdone : ({ observation with finished := true } : AutomaticObservation).holds record
            = false := rfl
        have hactive := observation.releases_active worker.router.records now success unhealthy
          record
        rw [h.counted record] at hactive
        refine hactive.trans ?_
        by_cases hown : observation.health = some record
        · have hheld : observation.holds record = true := by simp [hopen, hown]
          simp only [hheld, hdone, if_true, Bool.false_eq_true, if_false,
            Nat.add_zero] at hcount
          rw [if_pos hown, ← hcount]
          simp
        · have hheld : observation.holds record = false := by
            simp [AutomaticObservation.holds, hown]
          simp only [hheld, hdone, Bool.false_eq_true, if_false, Nat.add_zero] at hcount
          rw [if_neg hown]
          exact congrArg Nat.cast hcount.symm
      · intro other hother record hholds
        rcases mem_or_eq_of_mem_set hother with hother | rfl
        · exact h.kept other hother record hholds
        · simp at hholds

theorem Exact.firstResponse (h : Exact worker) {i : ℕ}
    (hi : worker.observations[i]? = some observation) (now : ℚ) : Exact { worker with
      observations := worker.observations.set i (observation.firstResponse now) } where
  single := h.single
  entry_made := h.entry_made
  held_made := by
    intro other hother record hrecord
    rcases mem_or_eq_of_mem_set hother with hother | rfl
    · exact h.held_made other hother record hrecord
    · exact h.held_made observation (mem_of_getElem? hi) record hrecord
  counted := by
    intro record
    have hcount := Worker.inFlight_set worker.router (observation.firstResponse now) hi record
    have hsame : (observation.firstResponse now).holds record = observation.holds record := rfl
    rw [hsame, Nat.add_right_cancel_iff] at hcount
    rw [hcount]
    exact h.counted record
  kept := by
    intro other hother record hholds
    rcases mem_or_eq_of_mem_set hother with hother | rfl
    · exact h.kept other hother record hholds
    · exact h.kept observation (mem_of_getElem? hi) record hholds

theorem rank_eq (now : ℚ) (request : RankRequest) :
    ∃ affinities, (rank router now request).2.2 = { router with affinities := affinities } := by
  unfold rank
  dsimp only
  split
  · split
    · exact ⟨_, rfl⟩
    · exact ⟨router.affinities, rfl⟩
  · exact ⟨router.affinities, rfl⟩

theorem Exact.step (h : Exact worker) (act : Act) : Exact (worker.step act) := by
  cases act with
  | start now selection key selector => exact h.start now selection key selector
  | firstResponse now i =>
    unfold Worker.step
    dsimp only
    split
    · exact h
    · rename_i observation hi
      exact h.firstResponse hi now
  | finish now i success unhealthy => exact h.finish now i success unhealthy
  | forget selection key =>
    obtain ⟨affinities, hforget⟩ := worker.router.forgetKey_eq selection.affinity key
    show Exact { worker with router := worker.router.forgetKey selection.affinity key }
    rw [hforget]
    exact h.rebind affinities
  | rank now request =>
    obtain ⟨affinities, hrank⟩ := rank_eq worker.router now request
    show Exact { worker with router := (rank worker.router now request).2.2 }
    rw [hrank]
    exact h.rebind affinities

theorem Exact.run (acts : List Act) : Exact (Worker.run acts) := by
  suffices ∀ worker, Exact worker → Exact (acts.foldl Worker.step worker) from this {} Exact.fresh
  induction acts with
  | nil => exact fun _ h => h
  | cons act rest ih => exact fun worker h => ih _ (h.step act)

/-! ### Eviction -/

theorem Worker.step_health {act : Act}
    (h : ∀ now selection key selector, act ≠ .start now selection key selector) :
    (worker.step act).router.health = worker.router.health := by
  cases act with
  | start now selection key selector => exact absurd rfl (h now selection key selector)
  | firstResponse now i =>
    unfold Worker.step
    dsimp only
    split <;> rfl
  | finish now i success unhealthy =>
    show (worker.finish now i success unhealthy).router.health = _
    unfold Worker.finish
    split
    · rfl
    · rename_i observation _
      split
      · rfl
      · obtain ⟨affinities, hreport⟩ :=
          observation.report_eq worker.router now success unhealthy
        rw [hreport]
  | forget selection key =>
    obtain ⟨affinities, hforget⟩ := worker.router.forgetKey_eq selection.affinity key
    show (worker.router.forgetKey selection.affinity key).health = _
    rw [hforget]
  | rank now request =>
    obtain ⟨affinities, hrank⟩ := rank_eq worker.router now request
    show (rank worker.router now request).2.2.health = _
    rw [hrank]

/-- **In-flight counts are exact.**  After any acts of a worker the counter of every record, in the
dictionary or evicted, is the number of its unfinished observations, so is never negative; an
unfinished observation holds the record its candidate has; and a record that the next act takes out
of the dictionary has no unfinished observation. -/
theorem in_flight_exact (acts : List Act) :
    (∀ record, ((Worker.run acts).router.records record).active = (Worker.run acts).inFlight record
      ∧ 0 ≤ ((Worker.run acts).router.records record).active)
    ∧ (∀ observation ∈ (Worker.run acts).observations, ∀ record, observation.holds record →
        get (Worker.run acts).router.health observation.key = some record)
    ∧ ∀ act, ∀ record ∈ (Worker.run acts).router.health.map Prod.snd,
        record ∉ ((Worker.run acts).step act).router.health.map Prod.snd →
          (Worker.run acts).inFlight record = 0 := by
  have h := Exact.run acts
  refine ⟨fun record => ⟨h.counted record, ?_⟩, h.kept, ?_⟩
  · rw [h.counted record]
    exact Int.natCast_nonneg _
  · intro act record hmem hgone
    refine List.countP_eq_zero.mpr fun observation hobs hholds => hgone ?_
    -- only a start changes the dictionary, and it keeps every observation made before it
    cases act with
    | start now selection key selector =>
      have hafter := (h.start now selection key selector).kept observation
        (List.mem_append_left _ hobs) record hholds
      obtain ⟨before, after, hsplit, -⟩ := List.lookup_eq_some_iff.mp hafter
      exact List.mem_map.mpr ⟨(observation.key, record), hsplit ▸ by simp, rfl⟩
    | firstResponse now i => rwa [Worker.step_health (by simp)]
    | finish now i success unhealthy => rwa [Worker.step_health (by simp)]
    | forget selection key => rwa [Worker.step_health (by simp)]
    | rank now request => rwa [Worker.step_health (by simp)]

end Otari.Routing
